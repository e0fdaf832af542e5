import Hrbl.RootScan
import Hrbl.Finalize

/-!
# Where the verifier leaves the file

The sums of the header may wrap, and then the strings section may start behind the footer, or the
root index end behind the file. What has to be in the file for the verifier to run off its end.
-/

namespace Hrbl

open Lib Lib.Outcome

/-! ## Texts -/

/-- The object ends where a character should start, or in the middle of the bytes that its lead
byte announces. The character is so many bytes long, or at least one. -/
def CutCharacter : Bytes → Nat → Prop
  | [], needed => needed = 1
  | byte :: tails, needed => ∃ k lead, utf8Lead byte = some (k, lead) ∧ (k = 1 → 2 ≤ lead.toNat) ∧
      AreTails tails ∧ tails.length < k ∧ needed = k + 1

theorem CutCharacter.needed_pos {data : Bytes} {needed : Nat} (h : CutCharacter data needed) :
    data.length < needed := by
  cases data with
  | nil =>
    rw [CutCharacter] at h
    simp [h]
  | cons byte tails =>
    obtain ⟨k, -, -, -, -, hlt, rfl⟩ := h
    rw [List.length_cons]
    omega

/-- The continuation bytes run off when all that are there are some. -/
theorem utf8Continuation_eq_fault {data : Bytes} {n : Nat} {codepoint : UInt32} :
    utf8Continuation data n codepoint = .fault ↔ AreTails data ∧ data.length < n := by
  -- on the number of bytes that are announced; it faults where they are not there
  induction n generalizing data codepoint with
  | zero =>
    rw [utf8Continuation]
    constructor
    · intro h
      cases h
    · rintro ⟨-, hlt⟩
      omega
  | succ n ih =>
    cases data with
    | nil =>
      rw [utf8Continuation]
      refine iff_of_true rfl ⟨?_, Nat.succ_pos n⟩
      intro byte hbyte
      cases hbyte
    | cons byte data =>
      obtain ⟨htail, -⟩ := continuation_eq byte
      rw [utf8Continuation, AreTails, List.forall_mem_cons, List.length_cons, ← htail]
      split
      · rename_i hnot
        refine iff_of_false (fun h => by cases h) ?_
        rintro ⟨⟨hbyte, -⟩, -⟩
        exact hnot hbyte
      · rename_i hbyte
        rw [ih, AreTails, Nat.succ_lt_succ_iff]
        constructor
        · rintro ⟨htails, hlt⟩
          exact ⟨⟨not_not.mp hbyte, htails⟩, hlt⟩
        · rintro ⟨⟨-, htails⟩, hlt⟩
          exact ⟨htails, hlt⟩

theorem verifyUtf8Sequence_eq_fault {data : Bytes} {remaining : Nat} (hpos : 0 < remaining) :
    verifyUtf8Sequence data remaining = .fault ↔
      ∃ needed ≤ remaining, CutCharacter data needed := by
  cases data with
  | nil => exact iff_of_true rfl ⟨1, hpos, rfl⟩
  | cons byte rest =>
    rw [verifyUtf8Sequence]
    split
    · -- a byte of seven bits announces nothing
      rename_i hascii
      refine iff_of_false (fun h => by cases h) ?_
      rintro ⟨needed, -, k, lead, hlead, -⟩
      have hbounds := utf8Lead_eq_some hlead
      have hlt : byte.toNat < 0x80 := UInt8.lt_iff_toNat_lt.mp hascii
      omega
    · cases hlead : utf8Lead byte with
      | none =>
        refine iff_of_false (fun h => by cases h) ?_
        rintro ⟨needed, -, k, lead, hlead', -⟩
        rw [hlead] at hlead'
        cases hlead'
      | some announced =>
        obtain ⟨k, lead⟩ := announced
        dsimp only
        -- the first byte tells how many are needed, so there is one number only
        have hcut : (∃ needed ≤ remaining, CutCharacter (byte :: rest) needed) ↔
            (k = 1 → 2 ≤ lead.toNat) ∧ (AreTails rest ∧ rest.length < k) ∧ k + 1 ≤ remaining := by
          constructor
          · rintro ⟨_, hle, k', lead', hlead', hlow, htails, hlt, rfl⟩
            cases hlead.symm.trans hlead'
            exact ⟨hlow, ⟨htails, hlt⟩, hle⟩
          · rintro ⟨hlow, ⟨htails, hlt⟩, hle⟩
            exact ⟨k + 1, hle, k, lead, hlead, hlow, htails, hlt, rfl⟩
        have hlow_iff : lead < 2 ↔ lead.toNat < 2 := UInt32.lt_iff_toNat_lt
        rw [hcut, ← utf8Continuation_eq_fault]
        split
        · rename_i hshort
          refine iff_of_false (fun h => by cases h) ?_
          rintro ⟨hlow, -⟩
          exact absurd (hlow hshort.1) (Nat.not_le.mpr (hlow_iff.mp hshort.2))
        · split
          · rename_i hroom
            refine iff_of_false (fun h => by cases h) ?_
            rintro ⟨-, -, hle⟩
            omega
          · rename_i hlow hroom
            cases hcontinuation : utf8Continuation rest k lead with
            | ok codepoint =>
              dsimp only
              refine iff_of_false ?_ ?_
              · split
                · intro h
                  cases h
                · intro h
                  cases h
              · rintro ⟨-, h, -⟩
                cases h
            | no =>
              refine iff_of_false (fun h => by cases h) ?_
              rintro ⟨-, h, -⟩
              cases h
            | fault =>
              refine iff_of_true rfl ⟨?_, rfl, by omega⟩
              intro hone
              by_contra hlt
              exact hlow ⟨hone, hlow_iff.mpr (Nat.not_le.mp hlt)⟩

/-- A sequence that passes does so with any room for its own bytes. -/
theorem verifyUtf8Sequence_room {data : Bytes} {remaining room n : Nat}
    (h : verifyUtf8Sequence data remaining = .ok n) (hroom : n + 1 ≤ room) :
    verifyUtf8Sequence data room = .ok n := by
  cases data with
  | nil => cases h
  | cons byte rest =>
    rw [verifyUtf8Sequence] at h ⊢
    split at h
    · rename_i hascii
      rwa [if_pos hascii]
    · rename_i hhigh
      rw [if_neg hhigh]
      cases hlead : utf8Lead byte with
      | none =>
        rw [hlead] at h
        cases h
      | some announced =>
        obtain ⟨k, lead⟩ := announced
        rw [hlead] at h
        dsimp only at h ⊢
        split at h
        · cases h
        · rename_i hlow
          split at h
          · cases h
          · cases hcontinuation : utf8Continuation rest k lead with
            | ok codepoint =>
              rw [hcontinuation] at h
              dsimp only at h ⊢
              split at h
              · rename_i hvalid
                cases h
                rw [if_neg hlow, if_neg (by omega), if_pos hvalid]
              · cases h
            | no =>
              rw [hcontinuation] at h
              cases h
            | fault =>
              rw [hcontinuation] at h
              cases h

/-- A sequence that passes is a character, wherever the object ends. -/
theorem verifyUtf8Sequence_character {data : Bytes} {remaining n : Nat}
    (h : verifyUtf8Sequence data remaining = .ok n) :
    n + 1 ≤ data.length ∧ IsUtf8 (data.take (n + 1)) := by
  have hlength := length_of_sequence h
  obtain ⟨-, c, hc⟩ := utf8_sound (Nat.succ_pos n) hlength
    (verifyUtf8Sequence_room h (Nat.le_refl _))
  refine ⟨hlength, [c], ?_⟩
  rw [List.flatMap_singleton, hc]

theorem isUtf8_append {s t : Bytes} (hs : IsUtf8 s) (ht : IsUtf8 t) : IsUtf8 (s ++ t) := by
  obtain ⟨cs, rfl⟩ := hs
  obtain ⟨ct, rfl⟩ := ht
  exact ⟨cs ++ ct, List.flatMap_append.symm⟩

/-- The object ends in the text at `data`, of so many bytes, and all that is there of it is in
order. -/
def CutText (data : Bytes) (length : Nat) : Prop :=
  ∃ (text tail : Bytes) (needed : Nat), data = text ++ tail ∧ IsUtf8 text ∧
    CutCharacter tail needed ∧ text.length + needed ≤ length

/-- A cut text is one from its start, or behind its first character. -/
theorem cutText_iff {data : Bytes} {length : Nat} (hpos : 0 < length) :
    CutText data length ↔
      verifyUtf8Sequence data length = .fault ∨
        ∃ n, verifyUtf8Sequence data length = .ok n ∧
          CutText (data.drop (n + 1)) (length - (n + 1)) := by
  constructor
  · rintro ⟨text, tail, needed, rfl, ⟨chars, rfl⟩, hcut, hle⟩
    cases chars with
    | nil => exact .inl ((verifyUtf8Sequence_eq_fault hpos).mpr ⟨needed, by simpa using hle, hcut⟩)
    | cons c chars =>
      rw [List.flatMap_cons, List.length_append] at hle
      have hlt := hcut.needed_pos
      rw [List.flatMap_cons, List.append_assoc]
      -- the first character passes with the bytes that are there, so it does with more
      have hmore : (String.utf8EncodeChar c).length ≤
          (String.utf8EncodeChar c ++ (chars.flatMap String.utf8EncodeChar ++ tail)).length := by
        rw [List.length_append]
        exact Nat.le_add_right _ _
      obtain ⟨n, hn, hsequence⟩ := utf8_complete c (Nat.le_refl _) hmore
      refine .inr ⟨n, verifyUtf8Sequence_room hsequence (by omega), ?_⟩
      rw [← hn, List.drop_left]
      exact ⟨_, tail, needed, rfl, ⟨chars, rfl⟩, hcut, by omega⟩
  · rintro (hfault | ⟨n, hsequence, text, tail, needed, hdrop, htext, hcut, hle⟩)
    · obtain ⟨needed, hle, hcut⟩ := (verifyUtf8Sequence_eq_fault hpos).mp hfault
      exact ⟨[], data, needed, rfl, isUtf8_nil, hcut, by simpa using hle⟩
    · obtain ⟨hlength, hcharacter⟩ := verifyUtf8Sequence_character hsequence
      have hlt := hcut.needed_pos
      refine ⟨data.take (n + 1) ++ text, tail, needed, ?_, isUtf8_append hcharacter htext, hcut, ?_⟩
      · rw [List.append_assoc, ← hdrop, List.take_append_drop]
      · rw [List.length_append, List.length_take]
        omega

theorem verifyUtf8Loop_eq_fault {data : Bytes} {length index : Nat} :
    verifyUtf8Loop data length index = .fault ↔
      index < length ∧ CutText (data.drop index) (length - index) := by
  fun_induction verifyUtf8Loop data length index with
  | case1 index hlt n hsequence ih =>
    rw [ih, cutText_iff (Nat.sub_pos_of_lt hlt), hsequence]
    constructor
    · rintro ⟨-, hcut⟩
      refine ⟨hlt, .inr ⟨n, rfl, ?_⟩⟩
      rwa [List.drop_drop, Nat.sub_sub]
    · rintro ⟨-, hfault | ⟨n', hn', hcut⟩⟩
      · cases hfault
      · cases hn'
        rw [List.drop_drop, Nat.sub_sub] at hcut
        -- a character that is cut needs a byte more, so the loop goes on behind this one
        obtain ⟨text, tail, needed, -, -, hcharacter, hle⟩ := id hcut
        have hpos := hcharacter.needed_pos
        exact ⟨by omega, hcut⟩
  | case2 index hlt hsequence =>
    refine iff_of_false (fun h => by cases h) ?_
    rw [cutText_iff (Nat.sub_pos_of_lt hlt), hsequence]
    rintro ⟨-, hfault | ⟨n', hn', -⟩⟩
    · cases hfault
    · cases hn'
  | case3 index hlt hsequence =>
    refine iff_of_true rfl ⟨hlt, ?_⟩
    rw [cutText_iff (Nat.sub_pos_of_lt hlt), hsequence]
    exact .inl rfl
  | case4 index hge =>
    refine iff_of_false (fun h => by cases h) ?_
    rintro ⟨hlt, -⟩
    exact hge hlt

/-- The check of a text runs off when the object cuts it. -/
theorem verifyUtf8Length_eq_fault {data : Bytes} {length : Nat} :
    verifyUtf8Length data length = .fault ↔ CutText data length := by
  rw [verifyUtf8Length, verifyUtf8Loop_eq_fault, List.drop_zero, Nat.sub_zero]
  constructor
  · rintro ⟨-, hcut⟩
    exact hcut
  · intro hcut
    obtain ⟨text, tail, needed, -, -, hcharacter, hle⟩ := id hcut
    have hpos := hcharacter.needed_pos
    exact ⟨by omega, hcut⟩

/-! ## Records -/

/-- The object ends in the pad bytes behind a text of so many bytes. -/
def CutPadding (data : Bytes) (length : Nat) : Prop :=
  ∃ text pad : Bytes, data = text ++ pad ∧ IsUtf8 text ∧ text.length = length ∧
    (∀ byte ∈ pad, byte = 0) ∧ pad.length < alignUpNat length 4 - length

/-- The object ends in the record at `bytes`: in its length, its text or its pad bytes. -/
def CutRecord (bytes : Bytes) : Prop :=
  bytes.length < 4 ∨ ∃ (length : UInt32) (data : Bytes), bytes = le32 length ++ data ∧
    (CutText data length.toNat ∨ CutPadding data length.toNat)

theorem verifyPadding_eq_fault {b : Buffer} {place : UInt64} {n : Nat}
    (hplace : place.toNat + n < 2 ^ 64) : verifyPadding b place n = .fault ↔
      (∀ byte ∈ b.bytes.drop place.toNat, byte = 0) ∧
        (b.bytes.drop place.toNat).length < n := by
  have hone : (1 : UInt64).toNat = 1 := rfl
  induction n generalizing place with
  | zero =>
    refine iff_of_false (fun h => by cases h) ?_
    rintro ⟨-, hlt⟩
    exact Nat.not_lt_zero _ hlt
  | succ n ih =>
    rw [verifyPadding]
    cases hload : loadByte b place with
    | fault =>
      -- the object has no byte there
      have hend : b.bytes.length ≤ place.toNat := by
        by_contra hlt
        have hsafe := loadByte_safe.mpr (Nat.not_le.mp hlt)
        rw [hload] at hsafe
        exact not_safe_fault hsafe
      rw [List.drop_of_length_le hend]
      refine iff_of_true rfl ⟨?_, Nat.succ_pos n⟩
      intro byte hbyte
      cases hbyte
    | no => exact absurd hload loadByte_ne_no
    | ok byte =>
      obtain ⟨after, hafter⟩ := loadByte_eq_ok.mp hload
      rw [List.singleton_append] at hafter
      have hnext : (place + 1).toNat = place.toNat + 1 := by
        rw [UInt64.toNat_add, hone]
        omega
      have hdrop : b.bytes.drop (place + 1).toNat = after := by
        rw [hnext, ← List.drop_drop, ← hafter, List.drop_one, List.tail_cons]
      rw [ok_bind, ← hafter, List.forall_mem_cons, List.length_cons, Nat.succ_lt_succ_iff]
      split
      · rename_i hbad
        refine iff_of_false (fun h => by cases h) ?_
        rintro ⟨⟨hzero, -⟩, -⟩
        exact hbad hzero
      · rename_i hzero
        have hrec : verifyPadding b (place + 1) n = .fault ↔ _ := ih (by omega)
        rw [hrec, hdrop]
        constructor
        · rintro ⟨hrest, hlt⟩
          exact ⟨⟨not_not.mp hzero, hrest⟩, hlt⟩
        · rintro ⟨⟨-, hrest⟩, hlt⟩
          exact ⟨hrest, hlt⟩

theorem verifyUtf8Length_ne_no {data : Bytes} {length : Nat} :
    verifyUtf8Length data length ≠ .no := by
  rw [verifyUtf8Length]
  generalize 0 = index
  fun_induction verifyUtf8Loop data length index with
  | case1 _ _ _ _ ih => exact ih
  | case2 => simp
  | case3 => simp
  | case4 => simp

theorem loadU32_eq_fault {b : Buffer} {offset : UInt64}
    (h : b.bytes.length < offset.toNat + 4) : loadU32 b offset = .fault := by
  rw [loadU32]
  cases hload : load b offset 4 with
  | ok raw =>
    have hle := load_safe.mp (by rw [hload]; exact safe_ok _)
    omega
  | no => exact absurd hload load_ne_no
  | fault => rfl

/-- Behind a text in order, the object ends in the pad bytes that follow it. -/
theorem cutPadding_iff {text pad : Bytes} (htext : IsUtf8 text) :
    CutPadding (text ++ pad) text.length ↔
      (∀ byte ∈ pad, byte = 0) ∧ pad.length < alignUpNat text.length 4 - text.length := by
  constructor
  · rintro ⟨text', pad', heq, -, hlength, hzero, hlt⟩
    obtain ⟨-, rfl⟩ := List.append_inj heq hlength.symm
    exact ⟨hzero, hlt⟩
  · rintro ⟨hzero, hlt⟩
    exact ⟨text, pad, rfl, htext, rfl, hzero, hlt⟩

/-- A record whose length is there is cut in its text or behind it. -/
theorem cutRecord_iff {length : UInt32} {data : Bytes} : CutRecord (le32 length ++ data) ↔
    CutText data length.toNat ∨ CutPadding data length.toNat := by
  constructor
  · rintro (hshort | ⟨length', data', heq, hcut⟩)
    · rw [List.length_append, length_le32] at hshort
      omega
    · obtain ⟨hword, hdata⟩ := List.append_inj heq (by rw [length_le32, length_le32])
      have hlength : length = length' := by
        rw [← u32At_of_hasAt (HasAt.self (le32 length)), hword, u32At_of_hasAt (HasAt.self _)]
      rwa [hlength, hdata]
  · intro hcut
    exact .inr ⟨length, data, rfl, hcut⟩

/-- In a section that is long enough for any text, a record is left where the object cuts it. -/
theorem verifyRecord_eq_fault {b : Buffer} {header : Header} {pool offset : UInt64}
    (hplace : pool.toNat + offset.toNat < 2 ^ 64)
    (hword : offset.toNat + 4 ≤ header.stringsSize.toNat)
    (hroom : pool.toNat + offset.toNat + 4 ≤ b.bytes.length →
      offset.toNat + 2 ^ 33 ≤ header.stringsSize.toNat) :
    verifyRecord b header pool offset = .fault ↔
      CutRecord (b.bytes.drop (pool.toNat + offset.toNat)) := by
  have hb := b.length_lt
  have hfour : (4 : UInt64).toNat = 4 := rfl
  have hsize := header.stringsSize.toNat_lt
  have hstart : (pool + offset).toNat = pool.toNat + offset.toNat := by
    rw [UInt64.toNat_add]
    exact Nat.mod_eq_of_lt hplace
  rw [verifyRecord, if_neg (by
    rw [gt_iff_lt, UInt64.lt_iff_toNat_lt, UInt64.toNat_add, hfour]
    omega)]
  by_cases hinside : pool.toNat + offset.toNat + 4 ≤ b.bytes.length
  · have hroom := hroom hinside
    obtain ⟨length, hlength⟩ : ∃ length, loadU32 b (pool + offset) = .ok length := by
      rw [loadU32, load_ok_of_le (by rw [hstart]; exact hinside)]
      exact ⟨_, rfl⟩
    have htotal := toNat_add_length length
    have hlt := length.toNat_lt
    have hpadlt := alignUpNat_lt (show 0 < 4 by omega) length.toNat
    have hpadle := le_alignUpNat (show 0 < 4 by omega) length.toNat
    have htext : (pool + offset + 4).toNat = pool.toNat + offset.toNat + 4 := by
      rw [UInt64.toNat_add, hstart, hfour]
      omega
    have haligned : (alignUp (4 + length.toUInt64) 4).toNat = 4 + alignUpNat length.toNat 4 := by
      rw [toNat_alignUp_four (by omega), htotal, alignUpNat_add (by omega) (Nat.dvd_refl 4)]
    have hpads : (pool + (offset + (4 + length.toUInt64))).toNat =
        pool.toNat + offset.toNat + 4 + length.toNat := by
      rw [UInt64.toNat_add, UInt64.toNat_add, htotal]
      omega
    have hcount : (alignUp (4 + length.toUInt64) 4 - (4 + length.toUInt64)).toNat =
        alignUpNat length.toNat 4 - length.toNat := by
      rw [UInt64.toNat_sub_of_le _ _ (by
        rw [UInt64.le_iff_toNat_le, haligned, htotal]
        omega), haligned, htotal]
      omega
    -- the word and what is behind it
    obtain ⟨data, hdata⟩ := loadU32_eq_ok.mp hlength
    rw [hstart] at hdata
    have hfrom : b.from (pool + offset + 4) = data := by
      rw [Buffer.from, htext, ← List.drop_drop, ← hdata, List.drop_left' (length_le32 _)]
    rw [← hdata, cutRecord_iff, hlength, ok_bind, hfrom]
    dsimp only
    rw [if_neg (by
      rw [gt_iff_lt, UInt64.lt_iff_toNat_lt, UInt64.toNat_add, htotal]
      omega), ← verifyUtf8Length_eq_fault]
    cases hutf8 : verifyUtf8Length data length.toNat with
    | fault => exact iff_of_true rfl (.inl rfl)
    | no => exact absurd hutf8 verifyUtf8Length_ne_no
    | ok status =>
      rw [ok_bind]
      by_cases hstatus : status = .ok
      · -- the text is in order, and its pad bytes are next
        subst hstatus
        rw [if_neg (not_not.mpr rfl), if_neg (by
          rw [gt_iff_lt, UInt64.lt_iff_toNat_lt, haligned,
            UInt64.toNat_sub_of_le _ _ (UInt64.le_iff_toNat_le.mpr (by omega))]
          omega), hcount]
        rw [← hfrom, verifyUtf8Length_from] at hutf8
        obtain ⟨text, hvalid, htextLength, pad, hpad⟩ := hutf8
        rw [htext, ← List.drop_drop, ← hdata, List.drop_left' (length_le32 _)] at hpad
        have hrest : b.bytes.drop (pool + (offset + (4 + length.toUInt64))).toNat = pad := by
          rw [hpads, ← List.drop_drop, ← List.drop_drop, ← hdata, List.drop_left' (length_le32 _),
            ← hpad, List.drop_left' htextLength]
        have hpadding := verifyPadding_eq_fault (b := b)
          (show (pool + (offset + (4 + length.toUInt64))).toNat +
            (alignUpNat length.toNat 4 - length.toNat) < 2 ^ 64 by rw [hpads]; omega)
        rw [hrest, ← htextLength, ← cutPadding_iff hvalid, hpad] at hpadding
        rw [bind_eq_fault, ← htextLength, hpadding]
        constructor
        · rintro (hcut | ⟨padStatus, -, hfault⟩)
          · exact .inr hcut
          · cases hfault
        · rintro (hfault | hcut)
          · cases hfault
          · exact .inl hcut
      · -- the text is not in order
        rw [if_pos hstatus]
        refine iff_of_false (fun h => by cases h) ?_
        rintro (hfault | ⟨text, pad, rfl, hvalid, htextLength, -⟩)
        · cases hfault
        · have hle : length.toNat ≤ (text ++ pad).length := by
            rw [List.length_append]
            omega
          have hspec := (verifyUtf8Length_spec hle).1 (by rwa [List.take_left' htextLength])
          rw [hutf8] at hspec
          cases hspec
          exact hstatus rfl
  · have hcut : CutRecord (b.bytes.drop (pool.toNat + offset.toNat)) := by
      refine .inl ?_
      rw [List.length_drop]
      omega
    refine iff_of_true ?_ hcut
    rw [loadU32_eq_fault (by rw [hstart]; omega)]
    rfl

/-! ## The scan -/

/-- Behind some records in order, the object ends in one. -/
def CutPool (bytes : Bytes) : Prop :=
  ∃ (strings : List Bytes) (tail : Bytes), bytes = poolBytes strings ++ tail ∧
    (∀ s ∈ strings, IsUtf8 s) ∧ CutRecord tail

/-- The first record is the one that is cut, or is in order. -/
theorem cutPool_iff {bytes : Bytes} : CutPool bytes ↔
    CutRecord bytes ∨ ∃ s rest, bytes = record s ++ rest ∧ IsUtf8 s ∧ CutPool rest := by
  constructor
  · rintro ⟨strings, tail, rfl, hutf8, hcut⟩
    cases strings with
    | nil => exact .inl hcut
    | cons s strings =>
      rw [List.forall_mem_cons] at hutf8
      refine .inr ⟨s, poolBytes strings ++ tail, ?_, hutf8.1, strings, tail, rfl, hutf8.2, hcut⟩
      rw [poolBytes, List.flatMap_cons, List.append_assoc]
      rfl
  · rintro (hcut | ⟨s, rest, rfl, hs, strings, tail, rfl, hutf8, hcut⟩)
    · exact ⟨[], bytes, rfl, fun _ h => absurd h List.not_mem_nil, hcut⟩
    · refine ⟨s :: strings, tail, ?_, List.forall_mem_cons.mpr ⟨hs, hutf8⟩, hcut⟩
      rw [poolBytes, poolBytes, List.flatMap_cons, List.append_assoc]

/-- A strings section whose size wraps: it starts behind the footer's start and still is to end
there. -/
structure WrappedPool (b : Buffer) (header : Header) : Prop where
  size_le : 160 ≤ b.bytes.length
  start_gt : b.bytes.length - 32 < header.stringsOffset.toNat
  sum_eq : header.stringsOffset.toNat + header.stringsSize.toNat =
    2 ^ 64 + (b.bytes.length - 32)

/-- A record of the scan of a wrapped section: it is cut, or it is in order and the scan is in
the file behind it. -/
theorem WrappedPool.record_outcome {b : Buffer} {header : Header} (h : WrappedPool b header)
    {offset : UInt64} (hoffset : offset.toNat = 0 ∨
      header.stringsOffset.toNat + offset.toNat ≤ b.bytes.length) :
    (verifyRecord b header header.stringsOffset offset = .fault ↔
        CutRecord (b.bytes.drop (header.stringsOffset.toNat + offset.toNat))) ∧
      ∀ aligned, verifyRecord b header header.stringsOffset offset = .ok (.ok, aligned) ↔
        ∃ s rest, b.bytes.drop (header.stringsOffset.toNat + offset.toNat) = record s ++ rest ∧
          IsUtf8 s ∧ aligned.toNat = (record s).length := by
  have hb := b.length_lt
  have hsize := h.size_le
  have hstart := h.start_gt
  have hsum := h.sum_eq
  have hlt := header.stringsOffset.toNat_lt
  have hplace : header.stringsOffset.toNat + offset.toNat < 2 ^ 64 := by omega
  constructor
  · exact verifyRecord_eq_fault hplace (by omega) (by omega)
  · intro aligned
    rw [verifyRecord_eq_ok (by rw [UInt64.lt_iff_toNat_lt]; omega) hplace]
    constructor
    · rintro ⟨s, hutf8, -, ⟨rest, hrest⟩, haligned, -⟩
      exact ⟨s, rest, hrest.symm, hutf8, haligned⟩
    · rintro ⟨s, rest, hdrop, hutf8, haligned⟩
      -- the record is in the footer
      have hlength := congrArg List.length hdrop
      rw [List.length_drop, List.length_append, length_record] at hlength
      have hle := le_alignUpNat (show 0 < 4 by omega) s.length
      have hmax : lengthMax = 4294967295 := rfl
      refine ⟨s, hutf8, by omega, ⟨rest, hdrop.symm⟩, haligned, ?_⟩
      rw [length_record]
      omega

/-- The scan of a wrapped section leaves the file where the file cuts the pool. -/
theorem WrappedPool.loop_eq_fault {b : Buffer} {header : Header} (h : WrappedPool b header)
    {offset counted : UInt64} (hoffset : offset.toNat = 0 ∨
      header.stringsOffset.toNat + offset.toNat ≤ b.bytes.length) :
    verifyStringsLoop b header header.stringsOffset offset counted = .fault ↔
      CutPool (b.bytes.drop (header.stringsOffset.toNat + offset.toNat)) := by
  have hb := b.length_lt
  have hsize := h.size_le
  have hstart := h.start_gt
  have hsum := h.sum_eq
  have hlt := header.stringsOffset.toNat_lt
  -- with a record that passes, the pool is cut behind it
  have hnext : ∀ {offset aligned : UInt64}, (offset.toNat = 0 ∨
      header.stringsOffset.toNat + offset.toNat ≤ b.bytes.length) →
      verifyRecord b header header.stringsOffset offset = .ok (.ok, aligned) →
      (offset + aligned).toNat = offset.toNat + aligned.toNat ∧
      header.stringsOffset.toNat + (offset + aligned).toNat ≤ b.bytes.length ∧
      (CutPool (b.bytes.drop (header.stringsOffset.toNat + (offset + aligned).toNat)) ↔
        CutPool (b.bytes.drop (header.stringsOffset.toNat + offset.toNat))) := by
    intro offset aligned hoffset hrecord
    obtain ⟨hfault, hok⟩ := h.record_outcome hoffset
    obtain ⟨s, rest, hdrop, hutf8, haligned⟩ := (hok aligned).mp hrecord
    have hlength := congrArg List.length hdrop
    have hpos := length_record s
    rw [List.length_drop, List.length_append] at hlength
    have hsum' : (offset + aligned).toNat = offset.toNat + aligned.toNat := by
      rw [UInt64.toNat_add, haligned]
      omega
    have hrest : b.bytes.drop (header.stringsOffset.toNat + (offset + aligned).toNat) = rest := by
      rw [hsum', ← Nat.add_assoc, ← List.drop_drop, hdrop, haligned, List.drop_left]
    refine ⟨hsum', by omega, ?_⟩
    rw [hrest]
    refine Iff.trans ?_ cutPool_iff.symm
    constructor
    · intro hcut
      exact .inr ⟨s, rest, hdrop, hutf8, hcut⟩
    · rintro (hcut | ⟨s', rest', hdrop', -, hcut⟩)
      · rw [hfault.mpr hcut] at hrecord
        cases hrecord
      · -- both are the record that the scan has read, which is in the footer
        have hlength' := congrArg List.length hdrop'
        have hpos' := length_record s'
        have hle := le_alignUpNat (show 0 < 4 by omega) s.length
        have hle' := le_alignUpNat (show 0 < 4 by omega) s'.length
        have hmax : lengthMax = 4294967295 := rfl
        rw [List.length_drop, List.length_append] at hlength'
        obtain ⟨-, rfl⟩ :=
          record_append_inj (by omega) (by omega) (hdrop.symm.trans hdrop')
        exact hcut
  -- with one that does not, and is read, it is not cut
  have hrefused : ∀ {offset : UInt64}, (offset.toNat = 0 ∨
      header.stringsOffset.toNat + offset.toNat ≤ b.bytes.length) →
      verifyRecord b header header.stringsOffset offset ≠ .fault →
      (∀ aligned, verifyRecord b header header.stringsOffset offset ≠ .ok (.ok, aligned)) →
      ¬CutPool (b.bytes.drop (header.stringsOffset.toNat + offset.toNat)) := by
    intro offset hoffset hsafe hbad hcut
    obtain ⟨hfault, hok⟩ := h.record_outcome hoffset
    rcases cutPool_iff.mp hcut with hcut | ⟨s, rest, hdrop, hutf8, -⟩
    · exact hsafe (hfault.mpr hcut)
    · have hlength := congrArg List.length hdrop
      rw [List.length_drop, List.length_append] at hlength
      refine hbad (UInt64.ofNat (record s).length) ((hok _).mpr ⟨s, rest, hdrop, hutf8, ?_⟩)
      rw [UInt64.toNat_ofNat', Nat.mod_eq_of_lt (by omega)]
  -- the scan does not come to the end that the header says
  have hmore : ∀ {offset : UInt64}, (offset.toNat = 0 ∨
      header.stringsOffset.toNat + offset.toNat ≤ b.bytes.length) →
      offset < header.stringsSize := by
    intro offset hoffset
    rw [UInt64.lt_iff_toNat_lt]
    omega
  fun_induction verifyStringsLoop b header header.stringsOffset offset counted with
  | case1 offset counted _ aligned hrecord ih =>
    obtain ⟨-, hinside, hcut⟩ := hnext hoffset hrecord
    exact (ih (.inr hinside)).trans hcut
  | case2 offset counted _ status aligned hbad hrecord =>
    refine iff_of_false (fun h => by cases h) (hrefused hoffset ?_ ?_)
    · rw [hrecord]
      simp
    · intro aligned' hpassed
      rw [hrecord] at hpassed
      cases hpassed
      exact hbad rfl
  | case3 offset counted _ hrecord =>
    refine iff_of_false (fun h => by cases h) (hrefused hoffset ?_ ?_)
    · rw [hrecord]
      simp
    · intro aligned hpassed
      rw [hrecord] at hpassed
      cases hpassed
  | case4 offset counted _ hrecord =>
    exact iff_of_true rfl (cutPool_iff.mpr (.inl ((h.record_outcome hoffset).1.mp hrecord)))
  | case5 _ _ hend => exact absurd (hmore hoffset) hend
  | case6 _ _ hend => exact absurd (hmore hoffset) hend
  | case7 _ _ hend => exact absurd (hmore hoffset) hend

/-- With the layout accepted, the pool is inside of the file or its size wraps. -/
theorem wrappedPool_or_inside {b : Buffer} {header : Header} (hsize : 160 ≤ b.bytes.length)
    (hlayout : header.LayoutAccepted b.size) :
    header.stringsOffset ≤ header.footerOffset ∧
        header.stringsOffset.toNat + header.stringsSize.toNat ≤ b.bytes.length ∨
      header.footerOffset < header.stringsOffset ∧ WrappedPool b header := by
  have hfooter := hlayout.footer_toNat hsize
  have hsum := congrArg UInt64.toNat hlayout.footerOffset
  have hlt := header.stringsOffset.toNat_lt
  have hlt' := header.stringsSize.toNat_lt
  rw [UInt64.toNat_add] at hsum
  rw [UInt64.le_iff_toNat_le, UInt64.lt_iff_toNat_lt]
  by_cases hstart : header.stringsOffset.toNat ≤ b.bytes.length - 32
  · exact .inl ⟨by omega, by omega⟩
  · exact .inr ⟨by omega, hsize, by omega, by omega⟩

/-- The strings section starts behind the footer's start, and the file ends in the pool there. -/
def PoolStrays (b : Buffer) (header : Header) : Prop :=
  header.footerOffset < header.stringsOffset ∧ CutPool (b.from header.stringsOffset)

theorem verifyStringsPool_eq_fault {b : Buffer} {header : Header} (hsize : 160 ≤ b.bytes.length)
    (hlayout : header.LayoutAccepted b.size) :
    verifyStringsPool b header = .fault ↔ PoolStrays b header := by
  have hzero : (0 : UInt64).toNat = 0 := rfl
  rcases wrappedPool_or_inside hsize hlayout with ⟨hle, hinside⟩ | ⟨hlt, hwrapped⟩
  · obtain ⟨status, hstatus⟩ := verifyStringsPool_returns hinside
    rw [hstatus]
    refine iff_of_false (fun h => by cases h) ?_
    rintro ⟨hlt, -⟩
    exact UInt64.not_le.mpr hlt hle
  · have hstart := header.stringsOffset.toNat_lt
    have hsum := hwrapped.sum_eq
    have hloop : verifyStringsLoop b header header.stringsOffset 0 0 = .fault ↔ _ :=
      hwrapped.loop_eq_fault (.inl rfl)
    rw [hzero, Nat.add_zero] at hloop
    rw [verifyStringsPool, if_neg, hloop, PoolStrays, Buffer.from]
    · exact ⟨fun h => ⟨hlt, h⟩, fun h => h.2⟩
    · intro hnone
      rw [hnone, hzero] at hsum
      omega

/-! ## The root index -/

/-- The root index ends behind the address space, and the entries of it that are in the file are
all in order. -/
def RootsStray (b : Buffer) (header : Header) : Prop :=
  2 ^ 64 ≤ 128 + 24 * header.rootCount.toNat ∧
    ∃ entries : List Entry, entries.length = (b.bytes.length - 128) / 24 ∧
      HasAt b.bytes 128 (entries.flatMap Entry.encode) ∧
      entries.Pairwise (fun e e' => e.keyHash64 < e'.keyHash64) ∧
      ∀ entry ∈ entries, EntryInSections header entry

/-- The loop from entry `i` leaves the file when the entries from there on that are in the file
are in order and there are to be more. -/
theorem verifyRootLoop_eq_fault {b : Buffer} {header : Header} {i previousHash : UInt64}
    (hoffset : header.rootIndexOffset = rootIndexStart) (hi : i ≤ header.rootCount)
    (hplace : 128 + i.toNat * 24 ≤ b.bytes.length) :
    verifyRootLoop b header i previousHash = .fault ↔
      b.bytes.length < 128 + header.rootCount.toNat * 24 ∧
      ∃ entries : List Entry, HasAt b.bytes (128 + i.toNat * 24) (entries.flatMap Entry.encode) ∧
        b.bytes.length < 128 + (i.toNat + entries.length) * 24 + 24 ∧
        (∀ entry ∈ entries, i ≠ 0 → previousHash < entry.keyHash64) ∧
        entries.Pairwise (fun a b => a.keyHash64 < b.keyHash64) ∧
        ∀ entry ∈ entries, EntryInSections header entry := by
  have hb := b.length_lt
  -- an entry that is listed first is the one that the loop loads
  have hfirst : ∀ {i : UInt64} {entry entry' : Entry} {entries : List Entry},
      128 + i.toNat * 24 ≤ b.bytes.length →
      loadEntry b (header.rootIndexOffset + i * rootEntrySize) = .ok entry →
      HasAt b.bytes (128 + i.toNat * 24) ((entry' :: entries).flatMap Entry.encode) →
      entry' = entry := by
    intro i entry entry' entries hplace hload hat
    rw [List.flatMap_cons, hasAt_append] at hat
    have hload' : loadEntry b (header.rootIndexOffset + i * rootEntrySize) = .ok entry' :=
      loadEntry_eq_ok.mpr (by rw [rootEntry_place hoffset (by omega)]; exact hat.1)
    rw [hload] at hload'
    cases hload'
    rfl
  fun_induction verifyRootLoop b header i previousHash with
  | case1 i previousHash hlt entry hload hentry ih =>
    have hat := loadEntry_eq_ok.mp hload
    rw [rootEntry_place hoffset (by omega)] at hat
    have hinside := hat.le_length fun hnil => by
      have hlen := entry.length_encode
      rw [hnil] at hlen
      cases hlen
    rw [Entry.length_encode] at hinside
    obtain ⟨hsucc, hle, hne, -⟩ := rootLoop_next hlt hat
    obtain ⟨hprevious, hsections⟩ := verifyRootEntry_eq_ok.mp hentry
    refine (ih hle (by omega)).trans (and_congr_right fun _ => ?_)
    constructor
    · rintro ⟨entries, hrest, hend, hgreater, hsorted, hall⟩
      refine ⟨entry :: entries, ?_, ?_, List.forall_mem_cons.mpr ⟨hprevious, ?_⟩,
        List.pairwise_cons.mpr ⟨fun e he => hgreater e he hne, hsorted⟩,
        List.forall_mem_cons.mpr ⟨hsections, hall⟩⟩
      · rw [List.flatMap_cons, hasAt_append, Entry.length_encode]
        refine ⟨hat, ?_⟩
        rwa [hsucc, Nat.succ_mul, ← Nat.add_assoc] at hrest
      · rw [List.length_cons]
        omega
      · intro e he hi
        exact UInt64.lt_trans (hprevious hi) (hgreater e he hne)
    · rintro ⟨entries, hrest, hend, hgreater, hsorted, hall⟩
      cases entries with
      | nil =>
        rw [List.length_nil] at hend
        omega
      | cons entry' entries =>
        obtain rfl := hfirst hplace hload hrest
        rw [List.flatMap_cons, hasAt_append, Entry.length_encode] at hrest
        rw [List.pairwise_cons] at hsorted
        rw [List.length_cons] at hend
        refine ⟨entries, ?_, by omega, fun e he _ => hsorted.1 e he, hsorted.2,
          (List.forall_mem_cons.mp hall).2⟩
        rw [hsucc, Nat.succ_mul, ← Nat.add_assoc]
        exact hrest.2
  | case2 i previousHash hlt entry hload hbad =>
    refine iff_of_false (fun h => by cases h) ?_
    rintro ⟨-, entries, hrest, hend, hgreater, -, hall⟩
    cases entries with
    | nil =>
      have hat := loadEntry_eq_ok.mp hload
      rw [rootEntry_place hoffset (by omega)] at hat
      have hlen := hat.length_le
      rw [Entry.length_encode, List.length_drop] at hlen
      rw [List.length_nil] at hend
      omega
    | cons entry' entries =>
      obtain rfl := hfirst hplace hload hrest
      exact hbad (verifyRootEntry_eq_ok.mpr
        ⟨(List.forall_mem_cons.mp hgreater).1, (List.forall_mem_cons.mp hall).1⟩)
  | case3 i previousHash _ hload => exact absurd hload loadEntry_ne_no
  | case4 i previousHash hlt hload =>
    have hend : b.bytes.length < 128 + i.toNat * 24 + 24 := by
      by_contra hinside
      rw [loadEntry, load_ok_of_le (by rw [rootEntry_place hoffset (by omega)]; omega)] at hload
      cases hload
    rw [UInt64.lt_iff_toNat_lt] at hlt
    refine iff_of_true rfl ⟨by omega, [], HasAt.nil _ _, hend, ?_, List.Pairwise.nil, ?_⟩
    · intro e he
      cases he
    · intro e he
      cases he
  | case5 i previousHash hge =>
    refine iff_of_false (fun h => by cases h) ?_
    rintro ⟨hshort, -⟩
    rw [UInt64.lt_iff_toNat_lt] at hge
    omega

theorem verifyRootIndex_eq_fault {b : Buffer} {header : Header} (hsize : 160 ≤ b.bytes.length)
    (hlayout : header.LayoutAccepted b.size)
    (hpool : header.stringsOffset ≤ header.footerOffset) :
    verifyRootIndex b header = .fault ↔ RootsStray b header := by
  have hb := b.length_lt
  have hzero : (0 : UInt64).toNat = 0 := rfl
  have hloop : verifyRootLoop b header 0 0 = .fault ↔ _ :=
    verifyRootLoop_eq_fault hlayout.rootIndexOffset (UInt64.le_iff_toNat_le.mpr (Nat.zero_le _))
      (by rw [hzero]; omega)
  rw [verifyRootIndex, hloop, RootsStray, hzero]
  simp only [Nat.zero_mul, Nat.add_zero, Nat.zero_add]
  constructor
  · rintro ⟨hshort, entries, hat, hend, -, hsorted, hall⟩
    -- the entries that are listed are in the file
    have hlen := hat.length_le
    rw [length_flatMap_encode, List.length_drop] at hlen
    have hcount : entries.length = (b.bytes.length - 128) / 24 := by omega
    refine ⟨?_, entries, hcount, hat, hsorted, hall⟩
    -- the first one names a node in front of the strings section
    obtain ⟨entry, hentry⟩ : ∃ entry, entry ∈ entries :=
      List.exists_mem_of_length_pos (by omega)
    have hsections := hall entry hentry
    have hnodes := UInt64.lt_of_le_of_lt hsections.value_ge
      (UInt64.lt_of_lt_of_le hsections.value_lt hpool)
    have hfooter := hlayout.footer_toNat hsize
    have h128 : (128 : UInt64).toNat = 128 := rfl
    have h24 : (24 : UInt64).toNat = 24 := rfl
    have hplace := congrArg UInt64.toNat hlayout.nodesOffset
    rw [hlayout.rootIndexSize, hlayout.rootIndexOffset, UInt64.toNat_add, UInt64.toNat_mul, h128,
      h24] at hplace
    rw [UInt64.lt_iff_toNat_lt] at hnodes
    by_contra hfits
    rw [Nat.mod_eq_of_lt (show header.rootCount.toNat * 24 < 2 ^ 64 by omega),
      Nat.mod_eq_of_lt (by omega)] at hplace
    omega
  · rintro ⟨hwraps, entries, hcount, hat, hsorted, hall⟩
    refine ⟨by omega, entries, hat, by omega, ?_, hsorted, hall⟩
    intro entry _ hne
    exact absurd rfl hne

/-! ## The verifier -/

/-- The range of the checksum is in the file, whatever the header says. -/
theorem load_payload_ok {b : Buffer} {header : Header} (hsize : 160 ≤ b.bytes.length)
    (hlayout : header.LayoutAccepted b.size) : ∃ payload, load b header.rootIndexOffset
      (header.footerOffset - header.rootIndexOffset).toNat = .ok payload := by
  have hfooter := hlayout.footer_toNat hsize
  have h128 : header.rootIndexOffset.toNat = 128 := congrArg UInt64.toNat hlayout.rootIndexOffset
  refine ⟨_, load_ok_of_le ?_⟩
  rw [UInt64.toNat_sub_of_le _ _ (UInt64.le_iff_toNat_le.mpr (by omega)), h128]
  omega

/-- A pool that passes does not start behind the footer's start. -/
theorem pool_le_footer {b : Buffer} {header : Header} (hsize : 160 ≤ b.bytes.length)
    (hlayout : header.LayoutAccepted b.size) (hheld : ∃ strings, PoolHeld b header strings) :
    header.stringsOffset ≤ header.footerOffset := by
  obtain ⟨strings, hheld⟩ := hheld
  rcases wrappedPool_or_inside hsize hlayout with ⟨hle, -⟩ | ⟨-, hwrapped⟩
  · exact hle
  · -- the strings would fill more than the file
    have hb := b.length_lt
    have hlt := header.stringsOffset.toNat_lt
    have hlen := hheld.held.length_le
    have hsum := hwrapped.sum_eq
    rw [hheld.size_eq, List.length_drop] at hlen
    omega

/-- The checksum of the payload is the one in the header. -/
def PayloadSummed (hash64 : List UInt8 → UInt64) (b : Buffer) (header : Header) : Prop :=
  ∃ payload, load b header.rootIndexOffset
      (header.footerOffset - header.rootIndexOffset).toNat = .ok payload ∧
    hash64 payload = header.checksumXxh3

/-- Behind the envelope, only the two scans can leave the file. -/
theorem verifyPayload_eq_fault {hash64 : List UInt8 → UInt64} {b : Buffer} {header : Header}
    (henvelope : Enveloped b header) : verifyPayload hash64 b header = .fault ↔
      PayloadSummed hash64 b header ∧
        (PoolStrays b header ∨ (∃ strings, PoolHeld b header strings) ∧ RootsStray b header) := by
  have hsize := henvelope.size_le
  have hlayout := henvelope.layout
  obtain ⟨payload, hpayload⟩ := load_payload_ok hsize hlayout
  have hsummed : PayloadSummed hash64 b header ↔ hash64 payload = header.checksumXxh3 := by
    constructor
    · rintro ⟨payload', hpayload', hsum⟩
      cases hpayload.symm.trans hpayload'
      exact hsum
    · intro hsum
      exact ⟨payload, hpayload, hsum⟩
  rw [verifyPayload, hpayload, ok_bind, hsummed]
  by_cases hsum : hash64 payload = header.checksumXxh3
  · rw [if_neg (not_not.mpr hsum), and_iff_right hsum, bind_eq_fault,
      verifyStringsPool_eq_fault hsize hlayout]
    -- the root index is checked only after a pool that is in order
    refine or_congr_right ?_
    constructor
    · rintro ⟨status, hpool, hroots⟩
      split at hroots
      · cases hroots
      · rename_i hstatus
        rw [not_not.mp hstatus] at hpool
        have hheld := verifyStringsPool_eq_ok.mp hpool
        exact ⟨hheld, (verifyRootIndex_eq_fault hsize hlayout
          (pool_le_footer hsize hlayout hheld)).mp hroots⟩
    · rintro ⟨hheld, hroots⟩
      refine ⟨.ok, verifyStringsPool_eq_ok.mpr hheld, ?_⟩
      rw [if_neg (not_not.mpr rfl)]
      exact (verifyRootIndex_eq_fault hsize hlayout
        (pool_le_footer hsize hlayout hheld)).mpr hroots
  · rw [if_pos hsum]
    refine iff_of_false (fun h => by cases h) ?_
    rintro ⟨hsum', -⟩
    exact hsum hsum'

/-- The verifier leaves the file exactly when the envelope and the checksum of the file are in
order, and either the strings section starts behind the footer's start and is cut by the end of the
file, or the strings are in order and so are all root entries up to the end of the file, of more
than the address space can hold. -/
theorem verifyBuffer_strays_iff (hash64 : List UInt8 → UInt64) (b : Buffer) :
    verifyBuffer hash64 b = .fault ↔ ∃ header, Enveloped b header ∧
      (∃ payload, load b header.rootIndexOffset
          (header.footerOffset - header.rootIndexOffset).toNat = .ok payload ∧
        hash64 payload = header.checksumXxh3) ∧
      (PoolStrays b header ∨ (∃ strings, PoolHeld b header strings) ∧ RootsStray b header) := by
  constructor
  · intro hfault
    by_cases henvelope : ∃ header, Enveloped b header
    · obtain ⟨header, henvelope⟩ := henvelope
      rw [verifyBuffer_of_enveloped henvelope] at hfault
      exact ⟨header, henvelope, (verifyPayload_eq_fault henvelope).mp hfault⟩
    · obtain ⟨status, hstatus, -⟩ := verifyBuffer_of_not_enveloped hash64 (not_exists.mp henvelope)
      rw [hstatus] at hfault
      cases hfault
  · rintro ⟨header, henvelope, hstrays⟩
    rw [verifyBuffer_of_enveloped henvelope]
    exact (verifyPayload_eq_fault henvelope).mpr hstrays

/-! ## Staying inside -/

/-- The scans of the pool and of the root index stay in the file: a strings section that starts
behind the footer's start has a record there that is refused before the file ends, and a root index
for which there is no address space has an entry in the file that is refused. -/
def ScansStay (b : Buffer) (header : Header) : Prop :=
  ¬PoolStrays b header ∧ ((∃ strings, PoolHeld b header strings) → ¬RootsStray b header)

/-- Sums that do not wrap keep the scans in the file, whatever is in the sections. -/
theorem scansStay_of_sumsFit {b : Buffer} {header : Header} (henvelope : Enveloped b header)
    (hsums : header.SumsFit) : ScansStay b header := by
  have hle : (160 : UInt64) ≤ b.size := by
    rw [UInt64.le_iff_toNat_le, Buffer.toNat_size]
    exact henvelope.size_le
  obtain ⟨-, -, -, -, -, hordered⟩ := (henvelope.layout.sectionsTile_iff hle).mpr hsums
  constructor
  · rintro ⟨hstart, -⟩
    rw [UInt64.lt_iff_toNat_lt] at hstart
    omega
  · rintro - ⟨hwraps, -⟩
    unfold Header.SumsFit at hsums
    omega

/-- The verifier reads nothing outside of the buffer, whatever its bytes are, exactly when the
scans of a file that passes the checks in front of them stay in it. They do when the sums of the
header do not wrap. -/
theorem verifyBuffer_safe_iff (hash64 : List UInt8 → UInt64) (b : Buffer) :
    (Safe (verifyBuffer hash64 b) ↔
      ∀ header, Enveloped b header → PayloadSummed hash64 b header → ScansStay b header) ∧
    ∀ header, Enveloped b header → header.SumsFit → ScansStay b header := by
  refine ⟨?_, fun header henvelope hsums => scansStay_of_sumsFit henvelope hsums⟩
  constructor
  · intro hsafe header henvelope hsummed
    have hnot : ¬verifyPayload hash64 b header = .fault := by
      intro hfault
      rw [verifyBuffer_of_enveloped henvelope, hfault] at hsafe
      exact not_safe_fault hsafe
    rw [verifyPayload_eq_fault henvelope] at hnot
    constructor
    · intro hpool
      exact hnot ⟨hsummed, .inl hpool⟩
    · intro hheld hroots
      exact hnot ⟨hsummed, .inr ⟨hheld, hroots⟩⟩
  · intro hstay hfault
    by_cases henvelope : ∃ header, Enveloped b header
    · obtain ⟨header, henvelope⟩ := henvelope
      rw [verifyBuffer_of_enveloped henvelope] at hfault
      obtain ⟨hsummed, hstrays⟩ := (verifyPayload_eq_fault henvelope).mp hfault
      obtain ⟨hpool, hroots⟩ := hstay header henvelope hsummed
      rcases hstrays with hstrays | ⟨hheld, hstrays⟩
      · exact hpool hstrays
      · exact hroots hheld hstrays
    · obtain ⟨status, hstatus, -⟩ := verifyBuffer_of_not_enveloped hash64 (not_exists.mp henvelope)
      rw [hstatus] at hfault
      cases hfault

/-- With any hash there is a file of 160 bytes that the verifier leaves: its strings section starts
eight bytes below the end of the address space. -/
theorem verifyBuffer_wrapping_strays :
    ¬∃ hash64 : List UInt8 → UInt64, ∀ b : Buffer, Safe (verifyBuffer hash64 b) := by
  rintro ⟨hash64, hsafe⟩
  obtain ⟨b, -, hsealed⟩ := exists_wrapping_sealed (hash64 [])
  have hstart : wrappingHeader.footerOffset < wrappingHeader.stringsOffset := by decide
  have hlength : b.bytes.length = 160 := hsealed.length_eq
  -- nothing of the file is where the pool starts
  have hfrom : b.from wrappingHeader.stringsOffset = [] :=
    List.drop_of_length_le (by rw [hlength]; decide)
  have hcut : CutPool (b.from wrappingHeader.stringsOffset) := by
    rw [hfrom]
    exact cutPool_iff.mpr (.inl (.inl (by decide)))
  have hfault := (verifyPayload_eq_fault hsealed.enveloped).mpr
    ⟨⟨[], hsealed.load_payload, rfl⟩, .inl ⟨hstart, hcut⟩⟩
  have hall := hsafe b
  rw [verifyBuffer_of_enveloped hsealed.enveloped, hfault] at hall
  exact not_safe_fault hall

end Hrbl
