import Hrbl.Format

/-!
# The verifier

`bc_hrbl_verify.c`: the UTF-8 check, the header layout, the scan of the strings
pool, the root index, and `bc_hrbl_verify_buffer` over them. `hash64` stands for
`bc_hrbl_hash64`, which is XXH3 of an external library.
-/

namespace Hrbl

open Lib Lib.Outcome

/-- `bc_hrbl_verify_status_t`. -/
inductive VerifyStatus where
  | ok
  | tooSmall
  | badMagic
  | badVersion
  | badFlags
  | badFileSize
  | badFooter
  | badChecksum
  | badLayout
  | badRootIndex
  | badNode
  | badString
  | badUtf8
  | duplicateKey
  | io
deriving Repr, DecidableEq

/-! ## UTF-8 -/

/-- What a lead byte announces: how many continuation bytes follow, and its own
bits of the code point. -/
def utf8Lead (byte : UInt8) : Option (Nat × UInt32) :=
  if byte &&& 0xE0 = 0xC0 then some (1, (byte &&& 0x1F).toUInt32)
  else if byte &&& 0xF0 = 0xE0 then some (2, (byte &&& 0x0F).toUInt32)
  else if byte &&& 0xF8 = 0xF0 then some (3, (byte &&& 0x07).toUInt32)
  else none

/-- The loop over the continuation bytes; `no` when one of them is none. -/
def utf8Continuation : List UInt8 → Nat → UInt32 → Outcome UInt32
  | _, 0, codepoint => .ok codepoint
  | [], _ + 1, _ => .fault
  | continuation :: data, n + 1, codepoint =>
    if continuation &&& 0xC0 ≠ 0x80 then .no
    else utf8Continuation data n ((codepoint <<< 6) ||| (continuation &&& 0x3F).toUInt32)

/-- The range checks on an assembled code point. -/
def utf8CodepointValid (continuations : Nat) (codepoint : UInt32) : Bool :=
  !(continuations = 2 && codepoint < 0x800)
    && !(continuations = 3 && (codepoint < 0x10000 || codepoint > 0x10FFFF))
    && !(codepoint ≥ 0xD800 && codepoint ≤ 0xDFFF)

/-- One turn of the loop of `bc_hrbl_verify_utf8_length`, on the bytes from the
cursor on and the length that is left: how many bytes follow the first byte of the
sequence, or `no` for `BAD_UTF8`. -/
def verifyUtf8Sequence (data : List UInt8) (remaining : Nat) : Outcome Nat :=
  match data with
  | [] => .fault
  | byte :: rest =>
    if byte < 0x80 then .ok 0
    else
      match utf8Lead byte with
      | none => .no
      | some (continuations, lead) =>
        -- only the two-byte case is refused on its lead byte alone
        if continuations = 1 ∧ lead < 2 then .no
        else if continuations + 1 > remaining then .no
        else
          match utf8Continuation rest continuations lead with
          | .ok codepoint =>
            if utf8CodepointValid continuations codepoint then .ok continuations else .no
          | .no => .no
          | .fault => .fault

/-- The loop of `bc_hrbl_verify_utf8_length`, from `index`. -/
def verifyUtf8Loop (data : List UInt8) (length index : Nat) : Outcome VerifyStatus :=
  if index < length then
    match verifyUtf8Sequence (data.drop index) (length - index) with
    | .ok continuations => verifyUtf8Loop data length (index + (continuations + 1))
    | .no => .ok .badUtf8
    | .fault => .fault
  else .ok .ok
termination_by length - index

/-- `bc_hrbl_verify_utf8_length` on a pointer, given as the bytes of the object
from it on, and a length. -/
def verifyUtf8Length (data : List UInt8) (length : Nat) : Outcome VerifyStatus :=
  verifyUtf8Loop data length 0

/-! ## Header -/

/-- `bc_hrbl_verify_header_layout`. -/
def verifyHeaderLayout (header : Header) (size : UInt64) : VerifyStatus :=
  if header.magic ≠ magicNumber then .badMagic
  else if header.versionMajor ≠ versionMajorNumber then .badVersion
  else if header.versionMinor > versionMinorNumber then .badVersion
  else if header.flags &&& flagsV1Required ≠ flagsV1Required then .badFlags
  else if header.flags &&& flagsV1ReservedMask ≠ 0 then .badFlags
  else if header.fileSize ≠ size then .badFileSize
  else if ∃ i, header.reserved i ≠ 0 then .badFlags
  else if header.rootIndexOffset ≠ rootIndexStart then .badLayout
  else if header.rootCount > rootCountMax then .badLayout
  else if header.rootIndexSize ≠ header.rootCount * rootEntrySize then .badLayout
  else if header.nodesOffset ≠ header.rootIndexOffset + header.rootIndexSize then .badLayout
  else if header.stringsOffset ≠ header.nodesOffset + header.nodesSize then .badLayout
  else if header.footerOffset ≠ header.stringsOffset + header.stringsSize then .badLayout
  else if header.footerOffset + footerSize ≠ header.fileSize then .badLayout
  else .ok

/-! ## Strings pool -/

/-- The loop over the pad bytes of a record. -/
def verifyPadding (b : Buffer) (at_ : UInt64) : Nat → Outcome VerifyStatus
  | 0 => .ok .ok
  | n + 1 => do
    let byte ← loadByte b at_
    if byte ≠ 0 then .ok .badString else verifyPadding b (at_ + 1) n

/-- One turn of the loop of `bc_hrbl_verify_strings_pool`, on the record at
`pool + offset`: `OK` with its aligned length, or the status that ends the scan. -/
def verifyRecord (b : Buffer) (header : Header) (pool offset : UInt64) :
    Outcome (VerifyStatus × UInt64) :=
  if offset + 4 > header.stringsSize then .ok (.badString, 0)
  else do
    let length ← loadU32 b (pool + offset)
    let total : UInt64 := 4 + length.toUInt64
    if offset + total > header.stringsSize then .ok (.badString, 0)
    else do
      let utf8Status ← verifyUtf8Length (b.from (pool + offset + 4)) length.toNat
      if utf8Status ≠ .ok then .ok (utf8Status, 0)
      else
        let alignedTotal := alignUp total 4
        if alignedTotal > header.stringsSize - offset then .ok (.badString, 0)
        else do
          let padStatus ← verifyPadding b (pool + (offset + total)) (alignedTotal - total).toNat
          .ok (padStatus, alignedTotal)

theorem toNat_add_length (length : UInt32) :
    ((4 : UInt64) + length.toUInt64).toNat = 4 + length.toNat := by
  have hlt := length.toNat_lt
  rw [UInt64.toNat_add, UInt32.toNat_toUInt64]
  exact Nat.mod_eq_of_lt (by change 4 + length.toNat < 2 ^ 64; omega)

/-- A record that passes moves the cursor forward, and not past the section. -/
theorem verifyRecord_moves {b : Buffer} {header : Header} {pool offset alignedTotal : UInt64}
    (h : verifyRecord b header pool offset = .ok (.ok, alignedTotal)) :
    0 < alignedTotal.toNat ∧ alignedTotal ≤ header.stringsSize - offset := by
  unfold verifyRecord at h
  split at h
  · cases h
  · obtain ⟨length, -, h⟩ := bind_eq_ok.mp h
    dsimp only at h
    split at h
    · cases h
    · obtain ⟨utf8Status, -, h⟩ := bind_eq_ok.mp h
      split at h
      · rename_i hne
        cases h
        exact absurd rfl hne
      · split at h
        · cases h
        · rename_i hle
          obtain ⟨padStatus, -, h⟩ := bind_eq_ok.mp h
          cases h
          refine ⟨?_, UInt64.not_lt.mp hle⟩
          have htotal := toNat_add_length length
          have hlt := length.toNat_lt
          have hle4 := le_alignUpNat (show 0 < 4 by omega) (4 + length.toNat)
          rw [toNat_alignUp_four (by omega), htotal]
          omega

/-- The loop of `bc_hrbl_verify_strings_pool`. -/
def verifyStringsLoop (b : Buffer) (header : Header) (pool offset counted : UInt64) :
    Outcome VerifyStatus :=
  if offset < header.stringsSize then
    match hrecord : verifyRecord b header pool offset with
    | .ok (.ok, alignedTotal) =>
      verifyStringsLoop b header pool (offset + alignedTotal) (counted + 1)
    | .ok (status, _) => .ok status
    | .no => .no
    | .fault => .fault
  else if offset ≠ header.stringsSize then .ok .badString
  else if counted ≠ header.stringsCount then .ok .badString
  else .ok .ok
termination_by (header.stringsSize - offset).toNat
decreasing_by
  rename_i hlt
  obtain ⟨hpos, hle⟩ := verifyRecord_moves hrecord
  rw [UInt64.lt_iff_toNat_lt] at hlt
  rw [UInt64.le_iff_toNat_le, UInt64.toNat_sub] at hle
  have hlt' := header.stringsSize.toNat_lt
  rw [UInt64.toNat_sub, UInt64.toNat_sub, UInt64.toNat_add]
  omega

/-- `bc_hrbl_verify_strings_pool`. -/
def verifyStringsPool (b : Buffer) (header : Header) : Outcome VerifyStatus :=
  if header.stringsSize = 0 then
    if header.stringsCount ≠ 0 then .ok .badString else .ok .ok
  else verifyStringsLoop b header header.stringsOffset 0 0

/-! ## Root index -/

/-- The checks on root entry `i`, given the hash of the entry before it. -/
def verifyRootEntry (header : Header) (i previousHash : UInt64) (entry : Entry) :
    VerifyStatus :=
  if i ≠ 0 ∧ entry.keyHash64 < previousHash then .badRootIndex
  else if i ≠ 0 ∧ entry.keyHash64 = previousHash then .duplicateKey
  else if entry.valueOffset < header.nodesOffset ∨ entry.valueOffset ≥ header.stringsOffset then
    .badRootIndex
  else if entry.keyPoolOffset.toUInt64 < header.stringsOffset ∨
      entry.keyPoolOffset.toUInt64 + 4 + entry.keyLength.toUInt64
        > header.stringsOffset + header.stringsSize then
    .badRootIndex
  else .ok

/-- The loop of `bc_hrbl_verify_root_index`, from entry `i`. -/
def verifyRootLoop (b : Buffer) (header : Header) (i previousHash : UInt64) :
    Outcome VerifyStatus :=
  if i < header.rootCount then
    match loadEntry b (header.rootIndexOffset + i * rootEntrySize) with
    | .ok entry =>
      if verifyRootEntry header i previousHash entry = .ok then
        verifyRootLoop b header (i + 1) entry.keyHash64
      else .ok (verifyRootEntry header i previousHash entry)
    | .no => .no
    | .fault => .fault
  else .ok .ok
termination_by (header.rootCount - i).toNat
decreasing_by
  rename_i hlt _
  have hlt' := header.rootCount.toNat_lt
  have hone : (1 : UInt64).toNat = 1 := rfl
  rw [UInt64.lt_iff_toNat_lt] at hlt
  rw [UInt64.toNat_sub, UInt64.toNat_sub, UInt64.toNat_add, hone]
  omega

/-- `bc_hrbl_verify_root_index`. -/
def verifyRootIndex (b : Buffer) (header : Header) : Outcome VerifyStatus :=
  verifyRootLoop b header 0 0

/-! ## Buffer -/

/-- `bc_hrbl_verify_buffer`. -/
def verifyBuffer (hash64 : List UInt8 → UInt64) (b : Buffer) : Outcome VerifyStatus :=
  if b.size < headerSize + footerSize then .ok .tooSmall
  else do
    let header ← loadHeader b 0
    let headerStatus := verifyHeaderLayout header b.size
    if headerStatus ≠ .ok then .ok headerStatus
    else do
      let footer ← loadFooter b header.footerOffset
      if footer.magicEnd ≠ magicNumber then .ok .badFooter
      else if footer.fileSize ≠ header.fileSize then .ok .badFooter
      else if footer.checksumXxh3 ≠ header.checksumXxh3 then .ok .badFooter
      else do
        let payloadLength := header.footerOffset - header.rootIndexOffset
        let payload ← load b header.rootIndexOffset payloadLength.toNat
        if hash64 payload ≠ header.checksumXxh3 then .ok .badChecksum
        else do
          let stringsStatus ← verifyStringsPool b header
          if stringsStatus ≠ .ok then .ok stringsStatus
          else verifyRootIndex b header

end Hrbl
