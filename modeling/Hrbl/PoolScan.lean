import Hrbl.Strings
import Hrbl.Utf8
import Hrbl.Envelope

/-!
# The strings section

What the scan of the strings pool accepts: records of well-formed strings, as many as the
header counts, that fill the section. Whatever the header says, a scan that ends well has
read the whole section inside the object.
-/

namespace Hrbl

open Lib Lib.Outcome

/-- The strings section of the header holds these strings. -/
structure PoolHeld (b : Buffer) (header : Header) (strings : List Bytes) : Prop where
  utf8 : ∀ s ∈ strings, IsUtf8 s
  length_le : ∀ s ∈ strings, s.length ≤ lengthMax
  held : HasAt b.bytes header.stringsOffset.toNat (poolBytes strings)
  size_eq : (poolBytes strings).length = header.stringsSize.toNat
  count_eq : strings.length = header.stringsCount.toNat

/-! ## Loads -/

/-- A load that returns shows what the object holds. -/
theorem hasAt_of_load {b : Buffer} {offset : UInt64} {n : Nat} {raw : List UInt8}
    (h : load b offset n = .ok raw) : HasAt b.bytes offset.toNat raw ∧ raw.length = n := by
  obtain ⟨hle, rfl⟩ := load_eq_ok h
  refine ⟨List.take_prefix _ _, ?_⟩
  rw [List.length_take, List.length_drop]
  omega

theorem loadU32_eq_ok {b : Buffer} {offset : UInt64} {x : UInt32} :
    loadU32 b offset = .ok x ↔ HasAt b.bytes offset.toNat (le32 x) := by
  constructor
  · intro h
    obtain ⟨raw, hraw, hx⟩ := bind_eq_ok.mp h
    obtain ⟨hat, hlen⟩ := hasAt_of_load hraw
    cases hx
    have hword : le32 (u32At raw 0) = raw := by
      have hlt := leNat_lt raw
      rw [hlen] at hlt
      rw [u32At, List.drop_zero, ← hlen, List.take_length, le32, UInt32.toNat_ofNat',
        Nat.mod_eq_of_lt (by omega), ← hlen, leBytes_leNat]
    rwa [hword]
  · intro h
    have hle := h.le_length (by simp [le32, leBytes])
    rw [length_le32] at hle
    rw [loadU32, load_of_hasAt h (length_le32 x) hle]
    have hself := HasAt.self (le32 x)
    rw [ok_bind, u32At_of_hasAt hself]
    rfl

theorem loadByte_eq_ok {b : Buffer} {offset : UInt64} {x : UInt8} :
    loadByte b offset = .ok x ↔ HasAt b.bytes offset.toNat [x] := by
  rw [loadByte]
  constructor
  · intro h
    split at h
    · rename_i hsome
      cases h
      obtain ⟨hlt, hget⟩ := List.getElem?_eq_some_iff.mp hsome
      rw [HasAt, List.drop_eq_getElem_cons hlt, hget]
      exact List.prefix_append [x] _
    · cases h
  · intro h
    rw [h.getElem?]

/-! ## Padding -/

theorem verifyPadding_eq_ok {b : Buffer} {n : Nat} : ∀ {at_ : UInt64}, at_.toNat + n < 2 ^ 64 →
    (verifyPadding b at_ n = .ok .ok ↔ HasAt b.bytes at_.toNat (List.replicate n 0)) := by
  induction n with
  | zero =>
    intro at_ _
    exact iff_of_true rfl (HasAt.nil _ _)
  | succ n ih =>
    intro at_ hlt
    have hone : (1 : UInt64).toNat = 1 := rfl
    have hnext : (at_ + 1).toNat = at_.toNat + 1 := by
      rw [UInt64.toNat_add, hone]
      omega
    have hsplit : List.replicate (n + 1) (0 : UInt8) = [0] ++ List.replicate n 0 := rfl
    rw [verifyPadding, hsplit, hasAt_append, List.length_singleton, ← hnext,
      ← ih (by omega), ← loadByte_eq_ok]
    constructor
    · intro h
      obtain ⟨byte, hbyte, h⟩ := bind_eq_ok.mp h
      split at h
      · cases h
      · rename_i hzero
        rw [not_not.mp hzero] at hbyte
        exact ⟨hbyte, h⟩
    · rintro ⟨hbyte, hrest⟩
      rw [hbyte, ok_bind, if_neg (not_not.mpr rfl)]
      exact hrest

/-! ## Texts -/

theorem length_of_continuation {rest : Bytes} {n : Nat} {codepoint c : UInt32}
    (h : utf8Continuation rest n codepoint = .ok c) : n ≤ rest.length := by
  induction n generalizing rest codepoint with
  | zero => exact Nat.zero_le _
  | succ n ih =>
    cases rest with
    | nil => cases h
    | cons b rest =>
      rw [utf8Continuation] at h
      split at h
      · cases h
      · exact Nat.succ_le_succ (ih h)

theorem length_of_sequence {data : Bytes} {remaining n : Nat}
    (h : verifyUtf8Sequence data remaining = .ok n) : n + 1 ≤ data.length := by
  cases data with
  | nil => cases h
  | cons byte rest =>
    rw [verifyUtf8Sequence] at h
    split at h
    · cases h
      exact Nat.succ_le_succ (Nat.zero_le _)
    · split at h
      · cases h
      · split at h
        · cases h
        · split at h
          · cases h
          · split at h
            · rename_i hcontinuation
              split at h
              · cases h
                exact Nat.succ_le_succ (length_of_continuation hcontinuation)
              · cases h
            · cases h
            · cases h

/-- A text that passes is inside the object. -/
theorem length_of_utf8Loop {data : Bytes} {length index : Nat}
    (h : verifyUtf8Loop data length index = .ok .ok) (hindex : index ≤ data.length) :
    length ≤ data.length := by
  fun_induction verifyUtf8Loop data length index with
  | case1 index _ n hsequence ih =>
    have hn := length_of_sequence hsequence
    rw [List.length_drop] at hn
    exact ih h (by omega)
  | case2 => cases h
  | case3 => cases h
  | case4 => omega

/-- The text check on a pointer into the object. -/
theorem verifyUtf8Length_from {b : Buffer} {offset : UInt64} {length : Nat} :
    verifyUtf8Length (b.from offset) length = .ok .ok ↔
      ∃ s, IsUtf8 s ∧ s.length = length ∧ HasAt b.bytes offset.toNat s := by
  constructor
  · intro h
    have hlength := length_of_utf8Loop h (Nat.zero_le _)
    refine ⟨(b.from offset).take length, ?_, ?_, List.take_prefix _ _⟩
    · by_contra hnot
      rw [(verifyUtf8Length_spec hlength).2 hnot] at h
      cases h
    · rw [List.length_take]
      omega
  · rintro ⟨s, hutf8, rfl, hat⟩
    have htake : (b.from offset).take s.length = s := (List.prefix_iff_eq_take.mp hat).symm
    have hlength : s.length ≤ (b.from offset).length := hat.length_le
    exact (verifyUtf8Length_spec hlength).1 (by rwa [htake])

/-! ## Records -/

/-- The parts of a record, each at its place. -/
theorem hasAt_record_iff {file : Bytes} {place : Nat} {s : Bytes} :
    HasAt file place (record s) ↔ HasAt file place (leBytes 4 s.length) ∧
      HasAt file (place + 4) s ∧
      HasAt file (place + 4 + s.length)
        (List.replicate (alignUpNat s.length 4 - s.length) 0) := by
  rw [record, hasAt_append, hasAt_append, List.length_append, length_leBytes, and_assoc,
    Nat.add_assoc]

theorem le32_length {s : Bytes} (h : s.length ≤ lengthMax) :
    le32 (UInt32.ofNat s.length) = leBytes 4 s.length := by
  rw [le32, UInt32.toNat_ofNat', Nat.mod_eq_of_lt (by simp only [lengthMax] at h; omega)]

/-- A record that passes, and where it ends. -/
theorem verifyRecord_eq_ok {b : Buffer} {header : Header} {pool offset alignedTotal : UInt64}
    (hoffset : offset < header.stringsSize) (hplace : pool.toNat + offset.toNat < 2 ^ 64) :
    verifyRecord b header pool offset = .ok (.ok, alignedTotal) ↔
      ∃ s, IsUtf8 s ∧ s.length ≤ lengthMax ∧
        HasAt b.bytes (pool.toNat + offset.toNat) (record s) ∧
        alignedTotal.toNat = (record s).length ∧
        offset.toNat + (record s).length ≤ header.stringsSize.toNat := by
  have hb := b.length_lt
  have hfour : (4 : UInt64).toNat = 4 := rfl
  have hsize := header.stringsSize.toNat_lt
  have hstart : (pool + offset).toNat = pool.toNat + offset.toNat := by
    rw [UInt64.toNat_add]
    exact Nat.mod_eq_of_lt hplace
  rw [UInt64.lt_iff_toNat_lt] at hoffset
  have hleft : (header.stringsSize - offset).toNat =
      header.stringsSize.toNat - offset.toNat :=
    UInt64.toNat_sub_of_le _ _ (UInt64.le_iff_toNat_le.mpr hoffset.le)
  -- the numbers of a record whose length field is inside
  have hnumbers : ∀ length : UInt32, pool.toNat + offset.toNat + 4 ≤ b.bytes.length →
      (pool + offset + 4).toNat = pool.toNat + offset.toNat + 4 ∧
      (offset + (4 + length.toUInt64)).toNat = offset.toNat + 4 + length.toNat ∧
      (pool + (offset + (4 + length.toUInt64))).toNat =
        pool.toNat + offset.toNat + 4 + length.toNat ∧
      (offset + 4).toNat = offset.toNat + 4 ∧
      (alignUp (4 + length.toUInt64) 4).toNat = 4 + alignUpNat length.toNat 4 := by
    intro length hinside
    have htotal := toNat_add_length length
    have hlt := length.toNat_lt
    refine ⟨?_, ?_, ?_, ?_, ?_⟩
    · rw [UInt64.toNat_add, hstart, hfour]
      omega
    · rw [UInt64.toNat_add, htotal]
      omega
    · rw [UInt64.toNat_add, UInt64.toNat_add, htotal]
      omega
    · rw [UInt64.toNat_add, hfour]
      omega
    · rw [toNat_alignUp_four (by omega), htotal,
        alignUpNat_add (by omega) (Nat.dvd_refl 4)]
  rw [verifyRecord]
  constructor
  · intro h
    split at h
    · cases h
    · obtain ⟨length, hlength, h⟩ := bind_eq_ok.mp h
      rw [loadU32_eq_ok, hstart] at hlength
      have hinside := hlength.le_length (by simp [le32, leBytes])
      rw [length_le32] at hinside
      obtain ⟨htext, htotal, hpads, -, haligned⟩ := hnumbers length hinside
      dsimp only at h
      split at h
      · cases h
      · obtain ⟨utf8Status, hutf8, h⟩ := bind_eq_ok.mp h
        split at h
        · rename_i hne
          cases h
          exact absurd rfl hne
        · rename_i hok
          rw [not_not.mp hok, verifyUtf8Length_from, htext] at hutf8
          obtain ⟨s, hs, hlen, hat⟩ := hutf8
          have hlt := length.toNat_lt
          have hpad := alignUpNat_lt (show 0 < 4 by omega) length.toNat
          have hpad' := le_alignUpNat (show 0 < 4 by omega) length.toNat
          split at h
          · cases h
          · rename_i hfits
            rw [gt_iff_lt, UInt64.lt_iff_toNat_lt, not_lt, haligned, hleft] at hfits
            obtain ⟨padStatus, hstatus, h⟩ := bind_eq_ok.mp h
            cases h
            have hcount : (alignUp (4 + length.toUInt64) 4 - (4 + length.toUInt64)).toNat =
                alignUpNat length.toNat 4 - length.toNat := by
              rw [UInt64.toNat_sub_of_le _ _ (by
                rw [UInt64.le_iff_toNat_le, haligned, toNat_add_length]
                omega), haligned, toNat_add_length]
              omega
            have htextEnd : pool.toNat + offset.toNat + 4 + s.length ≤ b.bytes.length := by
              rcases s with _ | ⟨x, s⟩
              · rwa [List.length_nil, Nat.add_zero]
              · exact hat.le_length (List.cons_ne_nil x s)
            rw [hcount, verifyPadding_eq_ok (by rw [hpads]; omega), hpads] at hstatus
            rw [← hlen] at haligned hfits hstatus hpad hpad' hlt
            refine ⟨s, hs, by simp only [lengthMax]; omega, ?_, ?_, ?_⟩
            · refine hasAt_record_iff.mpr ⟨?_, hat, hstatus⟩
              rwa [hlen]
            · rw [length_record]
              exact haligned
            · rw [length_record]
              omega
  · rintro ⟨s, hs, hlen, hat, haligned, hend⟩
    have hlt : s.length < 2 ^ 32 := by
      simp only [lengthMax] at hlen
      omega
    have hvalue : (UInt32.ofNat s.length).toNat = s.length := by
      rw [UInt32.toNat_ofNat']
      exact Nat.mod_eq_of_lt hlt
    obtain ⟨hlength, htext, hpad⟩ := hasAt_record_iff.mp hat
    have hpadlt := alignUpNat_lt (show 0 < 4 by omega) s.length
    have hpadle := le_alignUpNat (show 0 < 4 by omega) s.length
    have hinside := hlength.le_length (by simp [leBytes])
    rw [length_leBytes] at hinside
    rw [length_record] at hend haligned
    obtain ⟨hat₁, hat₂, hat₃, hat₄, hat₅⟩ := hnumbers (UInt32.ofNat s.length) hinside
    rw [hvalue] at hat₂ hat₃ hat₅
    rw [← le32_length hlen, ← hstart, ← loadU32_eq_ok] at hlength
    rw [if_neg (by rw [gt_iff_lt, UInt64.lt_iff_toNat_lt, hat₄]; omega), hlength, ok_bind]
    dsimp only
    have hutf8 : verifyUtf8Length (b.from (pool + offset + 4)) (UInt32.ofNat s.length).toNat =
        .ok .ok := verifyUtf8Length_from.mpr ⟨s, hs, hvalue.symm, by rwa [hat₁]⟩
    have htotal : ((4 : UInt64) + (UInt32.ofNat s.length).toUInt64).toNat = 4 + s.length := by
      rw [toNat_add_length, hvalue]
    have hcount : (alignUp (4 + (UInt32.ofNat s.length).toUInt64) 4 -
        (4 + (UInt32.ofNat s.length).toUInt64)).toNat = alignUpNat s.length 4 - s.length := by
      rw [UInt64.toNat_sub_of_le _ _ (by
        rw [UInt64.le_iff_toNat_le, hat₅, htotal]
        omega), hat₅, htotal]
      omega
    rw [if_neg (by rw [gt_iff_lt, UInt64.lt_iff_toNat_lt, hat₂]; omega), hutf8, ok_bind,
      if_neg (not_not.mpr rfl),
      if_neg (by rw [gt_iff_lt, UInt64.lt_iff_toNat_lt, hat₅, hleft]; omega), hcount,
      (verifyPadding_eq_ok (by rw [hat₃]; omega)).mpr (by rwa [hat₃]), ok_bind]
    rw [Outcome.ok.injEq, Prod.mk.injEq]
    exact ⟨rfl, UInt64.toNat_inj.mp (hat₅.trans haligned.symm)⟩

/-! ## The scan -/

/-- The next place of the scan. -/
theorem scan_step {header : Header} {pool offset alignedTotal counted : UInt64} {n : Nat}
    {b : Buffer} {s : Bytes} (hcounted : counted.toNat ≤ offset.toNat)
    (hat : HasAt b.bytes (pool.toNat + offset.toNat) (record s))
    (haligned : alignedTotal.toNat = (record s).length)
    (hend : offset.toNat + (record s).length ≤ header.stringsSize.toNat)
    (hn : n = pool.toNat + offset.toNat + (record s).length) :
    (offset + alignedTotal).toNat = offset.toNat + (record s).length ∧
      (counted + 1).toNat = counted.toNat + 1 ∧
      (counted + 1).toNat ≤ (offset + alignedTotal).toNat ∧
      pool.toNat + (offset + alignedTotal).toNat < 2 ^ 64 ∧
      pool.toNat + (offset + alignedTotal).toNat = n := by
  have hb := b.length_lt
  have hsize := header.stringsSize.toNat_lt
  have hone : (1 : UInt64).toNat = 1 := rfl
  have hlen := length_record s
  have hinside := hat.le_length fun hnil => by
    rw [hnil, List.length_nil] at hlen
    omega
  have hnext : (offset + alignedTotal).toNat = offset.toNat + (record s).length := by
    rw [UInt64.toNat_add, haligned]
    exact Nat.mod_eq_of_lt (Nat.lt_of_le_of_lt hend hsize)
  have hcount : (counted + 1).toNat = counted.toNat + 1 := by
    rw [UInt64.toNat_add, hone]
    exact Nat.mod_eq_of_lt (by omega)
  omega

/-- The scan from a place on. -/
theorem verifyStringsLoop_eq_ok {b : Buffer} {header : Header} {pool offset counted : UInt64}
    (hcounted : counted.toNat ≤ offset.toNat) (hoffset : offset ≤ header.stringsSize)
    (hplace : pool.toNat + offset.toNat < 2 ^ 64) :
    verifyStringsLoop b header pool offset counted = .ok .ok ↔
      ∃ strings, (∀ s ∈ strings, IsUtf8 s ∧ s.length ≤ lengthMax) ∧
        HasAt b.bytes (pool.toNat + offset.toNat) (poolBytes strings) ∧
        offset.toNat + (poolBytes strings).length = header.stringsSize.toNat ∧
        counted.toNat + strings.length = header.stringsCount.toNat := by
  constructor
  · intro h
    fun_induction verifyStringsLoop b header pool offset counted with
    -- a record that is valid is the first of the strings, and the scan goes on behind it
    | case1 offset counted hlt alignedTotal hrecord ih =>
      obtain ⟨s, hs, hlen, hat, haligned, hend⟩ := (verifyRecord_eq_ok hlt hplace).mp hrecord
      obtain ⟨hnext, hcount, hcounted', hplace', hn⟩ :=
        scan_step hcounted hat haligned hend rfl
      obtain ⟨strings, hstrings, hrest, hsize, htotal⟩ := ih hcounted'
        (UInt64.le_iff_toNat_le.mpr (hnext.trans_le hend)) hplace' h
      rw [hn] at hrest
      rw [hnext] at hsize
      rw [hcount] at htotal
      refine ⟨s :: strings, List.forall_mem_cons.mpr ⟨⟨hs, hlen⟩, hstrings⟩, ?_, ?_, ?_⟩
      · rw [poolBytes, List.flatMap_cons, hasAt_append]
        exact ⟨hat, hrest⟩
      · rw [poolBytes, List.flatMap_cons, List.length_append]
        rw [poolBytes] at hsize
        omega
      · rw [List.length_cons]
        omega
    | case2 _ _ _ _ _ hne =>
      cases h
      exact absurd rfl hne
    | case3 => cases h
    | case4 => cases h
    | case5 => cases h
    | case6 => cases h
    -- at the end of the section all strings are counted
    | case7 offset counted hge hend hcount =>
      refine ⟨[], fun _ hs => absurd hs List.not_mem_nil, HasAt.nil _ _, ?_, ?_⟩
      · rw [not_not.mp hend]
        rfl
      · rw [not_not.mp hcount]
        rfl
  · rintro ⟨strings, hstrings, hat, hsize, htotal⟩
    -- by induction on the strings, one turn of the loop for each
    induction strings generalizing offset counted with
    | nil =>
      have hend : offset = header.stringsSize := UInt64.toNat_inj.mp hsize
      have hcount : counted = header.stringsCount := UInt64.toNat_inj.mp htotal
      rw [verifyStringsLoop, hend, if_neg (UInt64.lt_irrefl _), if_neg (not_not.mpr rfl), hcount,
        if_neg (not_not.mpr rfl)]
    | cons s strings ih =>
      obtain ⟨⟨hs, hlen⟩, hstrings⟩ := List.forall_mem_cons.mp hstrings
      rw [poolBytes, List.flatMap_cons, hasAt_append] at hat
      rw [poolBytes, List.flatMap_cons, List.length_append] at hsize
      rw [List.length_cons] at htotal
      obtain ⟨hrecord, hrest⟩ := hat
      have hpos := length_record s
      have hlt : offset < header.stringsSize := by
        rw [UInt64.lt_iff_toNat_lt]
        omega
      have haligned : (UInt64.ofNat (record s).length).toNat = (record s).length := by
        have hbound := header.stringsSize.toNat_lt
        rw [UInt64.toNat_ofNat', Nat.mod_eq_of_lt (by omega)]
      have hok := (verifyRecord_eq_ok hlt hplace).mpr
        ⟨s, hs, hlen, hrecord, haligned, by omega⟩
      obtain ⟨hnext, hcount, hcounted', hplace', hn⟩ :=
        scan_step hcounted hrecord haligned
          (show offset.toNat + (record s).length ≤ header.stringsSize.toNat by omega) rfl
      have hloop := ih hcounted' (by rw [UInt64.le_iff_toNat_le]; omega) hplace' hstrings
        (by rwa [hn]) (by rw [hnext, poolBytes]; omega) (by rw [hcount]; omega)
      -- of the outcomes of a turn only a valid record is left
      rw [verifyStringsLoop, if_pos hlt]
      split
      · rename_i alignedTotal heq
        rw [hok] at heq
        cases heq
        exact hloop
      · rename_i status total hne heq
        rw [hok] at heq
        cases heq
        exact absurd rfl hne
      · rename_i heq
        rw [hok] at heq
        cases heq
      · rename_i heq
        rw [hok] at heq
        cases heq

/-- The scan accepts the sections that hold strings. -/
theorem verifyStringsPool_eq_ok {b : Buffer} {header : Header} :
    verifyStringsPool b header = .ok .ok ↔ ∃ strings, PoolHeld b header strings := by
  have hzero : (0 : UInt64).toNat = 0 := rfl
  have hloop : verifyStringsLoop b header header.stringsOffset 0 0 = .ok .ok ↔ _ :=
    verifyStringsLoop_eq_ok (Nat.le_refl _) (UInt64.le_iff_toNat_le.mpr (Nat.zero_le _)) (by
      rw [hzero, Nat.add_zero]
      exact header.stringsOffset.toNat_lt)
  have hheld : (∃ strings, (∀ s ∈ strings, IsUtf8 s ∧ s.length ≤ lengthMax) ∧
      HasAt b.bytes (header.stringsOffset.toNat + (0 : UInt64).toNat) (poolBytes strings) ∧
      (0 : UInt64).toNat + (poolBytes strings).length = header.stringsSize.toNat ∧
      (0 : UInt64).toNat + strings.length = header.stringsCount.toNat) ↔
      ∃ strings, PoolHeld b header strings := by
    simp only [hzero, Nat.add_zero, Nat.zero_add]
    exact ⟨fun ⟨strings, hs, hat, hsize, hcount⟩ =>
        ⟨strings, fun s h => (hs s h).1, fun s h => (hs s h).2, hat, hsize, hcount⟩,
      fun ⟨strings, h⟩ => ⟨strings, fun s hs => ⟨h.utf8 s hs, h.length_le s hs⟩, h.held,
        h.size_eq, h.count_eq⟩⟩
  rw [hheld] at hloop
  rw [← hloop, verifyStringsPool]
  by_cases hsize : header.stringsSize = 0
  · rw [if_pos hsize, verifyStringsLoop, hsize, if_neg (UInt64.lt_irrefl _),
      if_neg (not_not.mpr rfl)]
    by_cases hcount : header.stringsCount = 0
    · rw [if_neg (not_not.mpr hcount), if_neg (not_not.mpr hcount.symm)]
    · rw [if_pos hcount, if_pos (Ne.symm hcount)]
  · rw [if_neg hsize]

/-! ## A section inside the object -/

theorem verifyPadding_returns {b : Buffer} {n : Nat} : ∀ {at_ : UInt64},
    at_.toNat + n ≤ b.bytes.length → ∃ s, verifyPadding b at_ n = .ok s := by
  have hb := b.length_lt
  induction n with
  | zero => exact fun _ => ⟨_, rfl⟩
  | succ n ih =>
    intro at_ hle
    have hone : (1 : UInt64).toNat = 1 := rfl
    have hnext : (at_ + 1).toNat = at_.toNat + 1 := by
      rw [UInt64.toNat_add, hone]
      omega
    obtain ⟨byte, hbyte⟩ : ∃ byte, loadByte b at_ = .ok byte := by
      rw [loadByte, List.getElem?_eq_getElem (by omega)]
      exact ⟨_, rfl⟩
    rw [verifyPadding, hbyte, ok_bind]
    split
    · exact ⟨_, rfl⟩
    · exact ih (by omega)

/-- A record of such a section is read inside the object. -/
theorem verifyRecord_returns {b : Buffer} {header : Header} {pool offset : UInt64}
    (hinside : pool.toNat + header.stringsSize.toNat ≤ b.bytes.length)
    (hoffset : offset < header.stringsSize) : ∃ p, verifyRecord b header pool offset = .ok p := by
  have hb := b.length_lt
  have hfour : (4 : UInt64).toNat = 4 := rfl
  rw [UInt64.lt_iff_toNat_lt] at hoffset
  have hleft : (header.stringsSize - offset).toNat =
      header.stringsSize.toNat - offset.toNat :=
    UInt64.toNat_sub_of_le _ _ (UInt64.le_iff_toNat_le.mpr hoffset.le)
  have hstart : (pool + offset).toNat = pool.toNat + offset.toNat := by
    rw [UInt64.toNat_add]
    omega
  -- each check makes sure of the room for the next load
  rw [verifyRecord]
  split
  · exact ⟨_, rfl⟩
  · rename_i hword
    rw [gt_iff_lt, UInt64.lt_iff_toNat_lt, not_lt, UInt64.toNat_add, hfour] at hword
    obtain ⟨length, hlength⟩ : ∃ length, loadU32 b (pool + offset) = .ok length := by
      rw [loadU32, load_ok_of_le (by rw [hstart]; omega)]
      exact ⟨_, rfl⟩
    have htotal := toNat_add_length length
    have hlt := length.toNat_lt
    rw [hlength, ok_bind]
    dsimp only
    split
    · exact ⟨_, rfl⟩
    · rename_i hend
      rw [gt_iff_lt, UInt64.lt_iff_toNat_lt, not_lt, UInt64.toNat_add, htotal] at hend
      have htext : (pool + offset + 4).toNat = pool.toNat + offset.toNat + 4 := by
        rw [UInt64.toNat_add, hstart, hfour]
        omega
      obtain ⟨utf8Status, hutf8⟩ : ∃ s, verifyUtf8Length (b.from (pool + offset + 4))
          length.toNat = .ok s := by
        have hfrom : length.toNat ≤ (b.from (pool + offset + 4)).length := by
          rw [Buffer.from, List.length_drop, htext]
          omega
        by_cases hvalid : IsUtf8 ((b.from (pool + offset + 4)).take length.toNat)
        · exact ⟨_, (verifyUtf8Length_spec hfrom).1 hvalid⟩
        · exact ⟨_, (verifyUtf8Length_spec hfrom).2 hvalid⟩
      rw [hutf8, ok_bind]
      split
      · exact ⟨_, rfl⟩
      · split
        · exact ⟨_, rfl⟩
        · rename_i hpads
          rw [gt_iff_lt, UInt64.lt_iff_toNat_lt, not_lt, hleft] at hpads
          have haligned : (alignUp (4 + length.toUInt64) 4).toNat =
              alignUpNat (4 + length.toNat) 4 := by
            rw [toNat_alignUp_four (by omega), htotal]
          have hle := le_alignUpNat (show 0 < 4 by omega) (4 + length.toNat)
          have hcount : (alignUp (4 + length.toUInt64) 4 - (4 + length.toUInt64)).toNat =
              alignUpNat (4 + length.toNat) 4 - (4 + length.toNat) := by
            rw [UInt64.toNat_sub_of_le _ _ (by
              rw [UInt64.le_iff_toNat_le, haligned, htotal]
              exact hle), haligned, htotal]
          obtain ⟨padStatus, hpad⟩ := verifyPadding_returns (b := b)
            (n := (alignUp (4 + length.toUInt64) 4 - (4 + length.toUInt64)).toNat)
            (show (pool + (offset + (4 + length.toUInt64))).toNat + _ ≤ _ by
              rw [hcount, UInt64.toNat_add, UInt64.toNat_add, htotal]
              omega)
          rw [hpad]
          exact ⟨_, rfl⟩

theorem verifyStringsLoop_returns {b : Buffer} {header : Header} {pool offset counted : UInt64}
    (hinside : pool.toNat + header.stringsSize.toNat ≤ b.bytes.length) :
    ∃ s, verifyStringsLoop b header pool offset counted = .ok s := by
  have hrecords : ∀ {offset : UInt64} {x : Outcome (VerifyStatus × UInt64)},
      offset < header.stringsSize → verifyRecord b header pool offset = x → ∃ p, x = .ok p :=
    fun hlt heq => heq ▸ verifyRecord_returns hinside hlt
  fun_induction verifyStringsLoop b header pool offset counted with
  | case1 _ _ _ _ _ ih => exact ih
  | case2 => exact ⟨_, rfl⟩
  | case3 _ _ hlt hrecord =>
    obtain ⟨p, hp⟩ := hrecords hlt hrecord
    cases hp
  | case4 _ _ hlt hrecord =>
    obtain ⟨p, hp⟩ := hrecords hlt hrecord
    cases hp
  | case5 => exact ⟨_, rfl⟩
  | case6 => exact ⟨_, rfl⟩
  | case7 => exact ⟨_, rfl⟩

/-- The scan of such a section ends with a status. -/
theorem verifyStringsPool_returns {b : Buffer} {header : Header}
    (hinside : header.stringsOffset.toNat + header.stringsSize.toNat ≤ b.bytes.length) :
    ∃ s, verifyStringsPool b header = .ok s := by
  rw [verifyStringsPool]
  split
  · split <;> exact ⟨_, rfl⟩
  · exact verifyStringsLoop_returns hinside

/-! ## One way to read a section -/

theorem record_append_inj {s s' rest rest' : Bytes} (hs : s.length ≤ lengthMax)
    (hs' : s'.length ≤ lengthMax) (h : record s ++ rest = record s' ++ rest') :
    s = s' ∧ rest = rest' := by
  have hwords : leBytes 4 s.length = leBytes 4 s'.length := by
    have htake := congrArg (List.take 4) h
    simp only [record, List.append_assoc] at htake
    rwa [List.take_left' (length_leBytes 4 _), List.take_left' (length_leBytes 4 _)] at htake
  have hlength : s.length = s'.length := by
    have hvalue := congrArg leNat hwords
    simp only [lengthMax] at hs hs'
    rw [leNat_leBytes, leNat_leBytes, Nat.mod_eq_of_lt (by omega), Nat.mod_eq_of_lt (by omega)]
      at hvalue
    exact hvalue
  have hrecords := List.append_inj h (by rw [length_record, length_record, hlength])
  refine ⟨?_, hrecords.2⟩
  have htail := (List.append_inj hrecords.1 (by simp [hlength])).1
  exact (List.append_inj htail (by rw [length_leBytes, length_leBytes])).2

/-- A section holds one list of strings. -/
theorem poolBytes_inj {strings strings' : List Bytes} (h : ∀ s ∈ strings, s.length ≤ lengthMax)
    (h' : ∀ s ∈ strings', s.length ≤ lengthMax) (heq : poolBytes strings = poolBytes strings') :
    strings = strings' := by
  have hpos : ∀ (s : Bytes) (rest : List Bytes), poolBytes (s :: rest) ≠ [] := fun s rest hnil => by
    have hlength := congrArg List.length hnil
    rw [poolBytes, List.flatMap_cons, List.length_append, length_record, List.length_nil] at hlength
    omega
  induction strings generalizing strings' with
  | nil =>
    cases strings' with
    | nil => rfl
    | cons s' rest' => exact absurd heq.symm (hpos s' rest')
  | cons s rest ih =>
    cases strings' with
    | nil => exact absurd heq (hpos s rest)
    | cons s' rest' =>
      rw [List.forall_mem_cons] at h h'
      rw [poolBytes, poolBytes, List.flatMap_cons, List.flatMap_cons] at heq
      obtain ⟨rfl, hrest⟩ := record_append_inj h.1 h'.1 heq
      rw [ih h.2 h'.2 hrest]

/-! ## The grammar of a section -/

/-- A record: a length of 32 bits, so many bytes of well-formed UTF-8, and zeros up to the next
multiple of four. -/
def IsRecord (bytes : Bytes) : Prop :=
  ∃ (length : UInt32) (text pad : Bytes), bytes = le32 length ++ text ++ pad ∧
    text.length = length.toNat ∧ IsUtf8 text ∧ (∀ b ∈ pad, b = 0) ∧
    bytes.length = alignUpNat (4 + text.length) 4

/-- So many records, one behind the other. -/
def IsPool (bytes : Bytes) (count : Nat) : Prop :=
  ∃ records : List Bytes, records.length = count ∧ bytes = records.flatten ∧
    ∀ r ∈ records, IsRecord r

/-- The records of the grammar are those of strings. -/
theorem isRecord_iff {bytes : Bytes} :
    IsRecord bytes ↔ ∃ s, IsUtf8 s ∧ s.length ≤ lengthMax ∧ bytes = record s := by
  have hsum : ∀ s : Bytes, alignUpNat (4 + s.length) 4 = 4 + alignUpNat s.length 4 := fun s =>
    alignUpNat_add (by omega) (Nat.dvd_refl 4) s.length
  constructor
  · rintro ⟨length, text, pad, rfl, hlength, hutf8, hpad, htotal⟩
    have hlt := length.toNat_lt
    refine ⟨text, hutf8, by simp only [lengthMax]; omega, ?_⟩
    rw [List.length_append, List.length_append, length_le32, hsum] at htotal
    have hle := le_alignUpNat (show 0 < 4 by omega) text.length
    have hzeros : pad = List.replicate (alignUpNat text.length 4 - text.length) 0 :=
      List.eq_replicate_iff.mpr ⟨by omega, hpad⟩
    rw [record, ← hzeros, hlength]
    rfl
  · rintro ⟨s, hutf8, hlength, rfl⟩
    have hvalue : (UInt32.ofNat s.length).toNat = s.length := by
      rw [UInt32.toNat_ofNat']
      simp only [lengthMax] at hlength
      omega
    refine ⟨UInt32.ofNat s.length, s, List.replicate (alignUpNat s.length 4 - s.length) 0, ?_,
      hvalue.symm, hutf8, ?_, ?_⟩
    · rw [le32_length hlength]
      rfl
    · intro b hb
      exact List.eq_of_mem_replicate hb
    · rw [length_record, hsum]

/-- A section of the grammar is the pool of some strings. -/
theorem isPool_iff {bytes : Bytes} {count : Nat} : IsPool bytes count ↔
    ∃ strings, (∀ s ∈ strings, IsUtf8 s ∧ s.length ≤ lengthMax) ∧ bytes = poolBytes strings ∧
      strings.length = count := by
  constructor
  · rintro ⟨records, rfl, rfl, hrecords⟩
    induction records with
    | nil => exact ⟨[], fun _ hs => absurd hs List.not_mem_nil, rfl, rfl⟩
    | cons r records ih =>
      rw [List.forall_mem_cons] at hrecords
      obtain ⟨strings, hstrings, hbytes, hcount⟩ := ih hrecords.2
      obtain ⟨s, hutf8, hlength, rfl⟩ := isRecord_iff.mp hrecords.1
      refine ⟨s :: strings, List.forall_mem_cons.mpr ⟨⟨hutf8, hlength⟩, hstrings⟩, ?_, ?_⟩
      · rw [List.flatten_cons, hbytes]
        rfl
      · rw [List.length_cons, List.length_cons, hcount]
  · rintro ⟨strings, hstrings, rfl, rfl⟩
    refine ⟨strings.map record, List.length_map _, List.flatMap_def, ?_⟩
    intro r hr
    obtain ⟨s, hs, rfl⟩ := List.mem_map.mp hr
    exact isRecord_iff.mpr ⟨s, (hstrings s hs).1, (hstrings s hs).2, rfl⟩

/-- The scan of a section inside the object accepts exactly the grammar. -/
theorem verifyStringsPool_iff_isPool {b : Buffer} {header : Header} {section_ : Bytes}
    (hsize : section_.length = header.stringsSize.toNat)
    (hat : HasAt b.bytes header.stringsOffset.toNat section_) :
    verifyStringsPool b header = .ok .ok ↔ IsPool section_ header.stringsCount.toNat := by
  rw [verifyStringsPool_eq_ok, isPool_iff]
  constructor
  · rintro ⟨strings, h⟩
    -- two parts of one length at one place
    have hsame : section_ = poolBytes strings := by
      have hleft := List.prefix_iff_eq_take.mp hat
      have hright := List.prefix_iff_eq_take.mp h.held
      rw [hleft, hright, hsize, h.size_eq]
    exact ⟨strings, fun s hs => ⟨h.utf8 s hs, h.length_le s hs⟩, hsame, h.count_eq⟩
  · rintro ⟨strings, hstrings, rfl, hcount⟩
    exact ⟨strings, fun s hs => (hstrings s hs).1, fun s hs => (hstrings s hs).2, hat, hsize,
      hcount⟩

/-- A record of a letter of two bytes, which needs padding. -/
theorem verifyStringsPool_iff_isPool_two_bytes :
    ∃ (b : Buffer) (header : Header),
      HasAt b.bytes header.stringsOffset.toNat [2, 0, 0, 0, 0xC3, 0xA9, 0, 0] ∧
      (verifyStringsPool b header = .ok .ok ↔
        IsPool [2, 0, 0, 0, 0xC3, 0xA9, 0, 0] header.stringsCount.toNat) := by
  refine ⟨⟨[0xFF, 2, 0, 0, 0, 0xC3, 0xA9, 0, 0, 0xFF], by decide⟩,
    { Header.decode [] with stringsOffset := 1, stringsSize := 8, stringsCount := 1 }, ?_, ?_⟩
  · exact ⟨[0xFF], rfl⟩
  · exact verifyStringsPool_iff_isPool rfl ⟨[0xFF], rfl⟩

end Hrbl
