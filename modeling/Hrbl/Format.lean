import Hrbl.Lib.Align
import Hrbl.Lib.Outcome
import Hrbl.Lib.Bytes

/-!
# The file format

The constants, the packed structures and the typed loads of
`bc_hrbl_format_internal.h` and `bc_hrbl_types.h`. A file is

    header (128) | root index (24 per root) | nodes | strings pool | footer (32)

and every integer in it is little-endian. Offsets are `uint64_t`, so `UInt64`
here: their sums wrap as the C sums do. A load names the offset it starts at, and
faults when the object ends before the load does.
-/

namespace Hrbl

open Lib Lib.Outcome

/-! ## Constants -/

abbrev headerSize : UInt64 := 128
abbrev footerSize : UInt64 := 32
abbrev rootIndexStart : UInt64 := 128
abbrev rootEntrySize : UInt64 := 24
abbrev blockEntrySize : UInt64 := 24
abbrev arrayElementSize : UInt64 := 8

/-- `UINT64_MAX / BC_HRBL_ROOT_ENTRY_SIZE`. -/
abbrev rootCountMax : UInt64 := 0xFFFFFFFFFFFFFFFF / 24

abbrev magicNumber : UInt32 := 0x4C425248
abbrev versionMajorNumber : UInt16 := 1
abbrev versionMinorNumber : UInt16 := 0

abbrev flagStringsDedup : UInt64 := 1
abbrev flagKeysSortedHash : UInt64 := 2
abbrev flagRootsSortedHash : UInt64 := 4
abbrev flagHasChecksum : UInt64 := 8

abbrev flagsV1Required : UInt64 :=
  flagStringsDedup ||| flagKeysSortedHash ||| flagRootsSortedHash ||| flagHasChecksum

abbrev flagsV1ReservedMask : UInt64 := ~~~flagsV1Required

/-! ## Kinds -/

/-- `bc_hrbl_kind_t`. -/
inductive Kind where
  | null
  | false
  | true
  | int64
  | uint64
  | float64
  | string
  | block
  | array
deriving Repr, DecidableEq

/-- The byte that stands for a kind in a file. -/
def Kind.byte : Kind → UInt8
  | .null => 0x00
  | .false => 0x01
  | .true => 0x02
  | .int64 => 0x03
  | .uint64 => 0x04
  | .float64 => 0x05
  | .string => 0x06
  | .block => 0x10
  | .array => 0x11

/-- The kind a byte stands for; the other bytes are no kinds. -/
def Kind.ofByte : UInt8 → Option Kind
  | 0x00 => some .null
  | 0x01 => some .false
  | 0x02 => some .true
  | 0x03 => some .int64
  | 0x04 => some .uint64
  | 0x05 => some .float64
  | 0x06 => some .string
  | 0x10 => some .block
  | 0x11 => some .array
  | _ => none

@[simp] theorem Kind.ofByte_byte (k : Kind) : Kind.ofByte k.byte = some k := by
  cases k <;> rfl

/-- `bc_hrbl_kind_body_align`. -/
def Kind.bodyAlign : Kind → Nat
  | .null | .false | .true => 1
  | .string => 4
  | .int64 | .uint64 | .float64 | .block | .array => 8

/-- `bc_hrbl_kind_body_size`. -/
def Kind.bodySize : Kind → Nat
  | .null | .false | .true => 0
  | .string => 8
  | .int64 | .uint64 | .float64 => 8
  | .block | .array => 0

/-! ## Words -/

def le16 (x : UInt16) : List UInt8 := leBytes 2 x.toNat
def le32 (x : UInt32) : List UInt8 := leBytes 4 x.toNat
def le64 (x : UInt64) : List UInt8 := leBytes 8 x.toNat

@[simp] theorem length_le16 (x : UInt16) : (le16 x).length = 2 := length_leBytes 2 _
@[simp] theorem length_le32 (x : UInt32) : (le32 x).length = 4 := length_leBytes 4 _
@[simp] theorem length_le64 (x : UInt64) : (le64 x).length = 8 := length_leBytes 8 _

/-- The word of a fetched structure at a field's offset. -/
def u16At (raw : List UInt8) (i : Nat) : UInt16 := UInt16.ofNat (leNat ((raw.drop i).take 2))
def u32At (raw : List UInt8) (i : Nat) : UInt32 := UInt32.ofNat (leNat ((raw.drop i).take 4))
def u64At (raw : List UInt8) (i : Nat) : UInt64 := UInt64.ofNat (leNat ((raw.drop i).take 8))

theorem u16At_of_hasAt {raw : List UInt8} {i : Nat} {x : UInt16}
    (h : HasAt raw i (le16 x)) : u16At raw i = x := by
  have htake : (raw.drop i).take 2 = le16 x := by
    rw [← length_le16 x]; exact (List.prefix_iff_eq_take.mp h).symm
  rw [u16At, htake, le16, leNat_leBytes_of_lt x.toNat_lt, UInt16.ofNat_toNat]

theorem u32At_of_hasAt {raw : List UInt8} {i : Nat} {x : UInt32}
    (h : HasAt raw i (le32 x)) : u32At raw i = x := by
  have htake : (raw.drop i).take 4 = le32 x := by
    rw [← length_le32 x]; exact (List.prefix_iff_eq_take.mp h).symm
  rw [u32At, htake, le32, leNat_leBytes_of_lt x.toNat_lt, UInt32.ofNat_toNat]

theorem u64At_of_hasAt {raw : List UInt8} {i : Nat} {x : UInt64}
    (h : HasAt raw i (le64 x)) : u64At raw i = x := by
  have htake : (raw.drop i).take 8 = le64 x := by
    rw [← length_le64 x]; exact (List.prefix_iff_eq_take.mp h).symm
  rw [u64At, htake, le64, leNat_leBytes_of_lt x.toNat_lt, UInt64.ofNat_toNat]

/-! ## Structures -/

/-- `bc_hrbl_header_t`. -/
structure Header where
  magic : UInt32
  versionMajor : UInt16
  versionMinor : UInt16
  fileSize : UInt64
  flags : UInt64
  rootCount : UInt64
  rootIndexOffset : UInt64
  rootIndexSize : UInt64
  nodesOffset : UInt64
  nodesSize : UInt64
  stringsOffset : UInt64
  stringsSize : UInt64
  stringsCount : UInt64
  footerOffset : UInt64
  checksumXxh3 : UInt64
  reserved : Fin 24 → UInt8
deriving DecidableEq

def Header.encode (h : Header) : List UInt8 :=
  le32 h.magic ++ le16 h.versionMajor ++ le16 h.versionMinor ++ le64 h.fileSize
    ++ le64 h.flags ++ le64 h.rootCount ++ le64 h.rootIndexOffset ++ le64 h.rootIndexSize
    ++ le64 h.nodesOffset ++ le64 h.nodesSize ++ le64 h.stringsOffset ++ le64 h.stringsSize
    ++ le64 h.stringsCount ++ le64 h.footerOffset ++ le64 h.checksumXxh3
    ++ List.ofFn h.reserved

def Header.decode (raw : List UInt8) : Header where
  magic := u32At raw 0
  versionMajor := u16At raw 4
  versionMinor := u16At raw 6
  fileSize := u64At raw 8
  flags := u64At raw 16
  rootCount := u64At raw 24
  rootIndexOffset := u64At raw 32
  rootIndexSize := u64At raw 40
  nodesOffset := u64At raw 48
  nodesSize := u64At raw 56
  stringsOffset := u64At raw 64
  stringsSize := u64At raw 72
  stringsCount := u64At raw 80
  footerOffset := u64At raw 88
  checksumXxh3 := u64At raw 96
  reserved := fun i => raw.getD (104 + i) 0

@[simp] theorem Header.length_encode (h : Header) : h.encode.length = 128 := by
  simp [Header.encode]

theorem Header.decode_of_hasAt {raw : List UInt8} {h : Header} (hat : HasAt raw 0 h.encode) :
    Header.decode raw = h := by
  unfold Header.encode at hat
  simp only [hasAt_append, length_le16, length_le32, length_le64, List.length_append,
    Nat.zero_add, Nat.reduceAdd] at hat
  obtain ⟨⟨⟨⟨⟨⟨⟨⟨⟨⟨⟨⟨⟨⟨⟨h0, h4⟩, h6⟩, h8⟩, h16⟩, h24⟩, h32⟩, h40⟩, h48⟩, h56⟩, h64⟩, h72⟩,
    h80⟩, h88⟩, h96⟩, hreserved⟩ := hat
  have htail : ∀ i : Fin 24, raw.getD (104 + i) 0 = h.reserved i := by
    intro i
    have hpart := hreserved.drop i (by simp)
    have hcons : (List.ofFn h.reserved).drop i
        = h.reserved i :: (List.ofFn h.reserved).drop (i + 1) := by
      rw [List.drop_eq_getElem_cons (by simp), List.getElem_ofFn]
    rw [hcons] at hpart
    rw [List.getD_eq_getElem?_getD]
    exact congrArg (Option.getD · 0) hpart.getElem?
  simp only [Header.decode]
  congr 1
  · exact u32At_of_hasAt h0
  · exact u16At_of_hasAt h4
  · exact u16At_of_hasAt h6
  · exact u64At_of_hasAt h8
  · exact u64At_of_hasAt h16
  · exact u64At_of_hasAt h24
  · exact u64At_of_hasAt h32
  · exact u64At_of_hasAt h40
  · exact u64At_of_hasAt h48
  · exact u64At_of_hasAt h56
  · exact u64At_of_hasAt h64
  · exact u64At_of_hasAt h72
  · exact u64At_of_hasAt h80
  · exact u64At_of_hasAt h88
  · exact u64At_of_hasAt h96
  · exact funext htail

/-- `bc_hrbl_footer_t`. -/
structure Footer where
  checksumXxh3 : UInt64
  fileSize : UInt64
  magicEnd : UInt32
  reserved : Fin 12 → UInt8
deriving DecidableEq

def Footer.encode (f : Footer) : List UInt8 :=
  le64 f.checksumXxh3 ++ le64 f.fileSize ++ le32 f.magicEnd ++ List.ofFn f.reserved

def Footer.decode (raw : List UInt8) : Footer where
  checksumXxh3 := u64At raw 0
  fileSize := u64At raw 8
  magicEnd := u32At raw 16
  reserved := fun i => raw.getD (20 + i) 0

@[simp] theorem Footer.length_encode (f : Footer) : f.encode.length = 32 := by
  simp [Footer.encode]

/-- `bc_hrbl_entry_t`: an entry of the root index and of every block. -/
structure Entry where
  keyHash64 : UInt64
  keyPoolOffset : UInt32
  keyLength : UInt32
  valueOffset : UInt64
deriving Repr, DecidableEq

def Entry.encode (e : Entry) : List UInt8 :=
  le64 e.keyHash64 ++ le32 e.keyPoolOffset ++ le32 e.keyLength ++ le64 e.valueOffset

def Entry.decode (raw : List UInt8) : Entry where
  keyHash64 := u64At raw 0
  keyPoolOffset := u32At raw 8
  keyLength := u32At raw 12
  valueOffset := u64At raw 16

@[simp] theorem Entry.length_encode (e : Entry) : e.encode.length = 24 := by
  simp [Entry.encode]

theorem Entry.decode_of_hasAt {raw : List UInt8} {e : Entry} (hat : HasAt raw 0 e.encode) :
    Entry.decode raw = e := by
  unfold Entry.encode at hat
  simp only [hasAt_append, length_le32, length_le64, List.length_append, Nat.zero_add,
    Nat.reduceAdd] at hat
  obtain ⟨⟨⟨h0, h8⟩, h12⟩, h16⟩ := hat
  simp only [Entry.decode]
  congr 1
  · exact u64At_of_hasAt h0
  · exact u32At_of_hasAt h8
  · exact u32At_of_hasAt h12
  · exact u64At_of_hasAt h16

/-- `bc_hrbl_block_header_t`. -/
structure BlockHeader where
  childCount : UInt32
  entriesSizeBytes : UInt32
deriving Repr, DecidableEq

/-- `bc_hrbl_array_header_t`. -/
structure ArrayHeader where
  elementCount : UInt32
  bodySizeBytes : UInt32
deriving Repr, DecidableEq

/-- `bc_hrbl_string_ref_t`. -/
structure StringRef where
  poolOffset : UInt32
  length : UInt32
deriving Repr, DecidableEq

/-! ## Memory -/

/-- What the verifier and the reader are handed: an object in memory, and no
object is larger than `PTRDIFF_MAX` bytes. -/
structure Buffer where
  bytes : List UInt8
  length_lt : bytes.length < 2 ^ 63
deriving Repr, DecidableEq

/-- The `size_t` that goes with the pointer. -/
def Buffer.size (b : Buffer) : UInt64 := UInt64.ofNat b.bytes.length

@[simp] theorem Buffer.toNat_size (b : Buffer) : b.size.toNat = b.bytes.length := by
  have hlt := b.length_lt
  rw [Buffer.size, UInt64.toNat_ofNat']
  omega

/-- A pointer to `offset`, as the bytes of the object from there on. -/
def Buffer.from (b : Buffer) (offset : UInt64) : List UInt8 := b.bytes.drop offset.toNat

/-- The `n` bytes from `offset` on; a read that leaves the object is a fault. -/
def load (b : Buffer) (offset : UInt64) (n : Nat) : Outcome (List UInt8) :=
  match fetch b.bytes offset.toNat n with
  | some raw => .ok raw
  | none => .fault

/-- `data[offset]`. -/
def loadByte (b : Buffer) (offset : UInt64) : Outcome UInt8 :=
  match b.bytes[offset.toNat]? with
  | some byte => .ok byte
  | none => .fault

def loadU32 (b : Buffer) (offset : UInt64) : Outcome UInt32 := do
  let raw ← load b offset 4
  return u32At raw 0

def loadU64 (b : Buffer) (offset : UInt64) : Outcome UInt64 := do
  let raw ← load b offset 8
  return u64At raw 0

def loadHeader (b : Buffer) (offset : UInt64) : Outcome Header := do
  let raw ← load b offset 128
  return Header.decode raw

def loadFooter (b : Buffer) (offset : UInt64) : Outcome Footer := do
  let raw ← load b offset 32
  return Footer.decode raw

def loadEntry (b : Buffer) (offset : UInt64) : Outcome Entry := do
  let raw ← load b offset 24
  return Entry.decode raw

def loadBlockHeader (b : Buffer) (offset : UInt64) : Outcome BlockHeader := do
  let raw ← load b offset 8
  return { childCount := u32At raw 0, entriesSizeBytes := u32At raw 4 }

def loadArrayHeader (b : Buffer) (offset : UInt64) : Outcome ArrayHeader := do
  let raw ← load b offset 8
  return { elementCount := u32At raw 0, bodySizeBytes := u32At raw 4 }

def loadStringRef (b : Buffer) (offset : UInt64) : Outcome StringRef := do
  let raw ← load b offset 8
  return { poolOffset := u32At raw 0, length := u32At raw 4 }

/-- A load is a fault exactly when it does not end inside the object. -/
theorem load_safe {b : Buffer} {offset : UInt64} {n : Nat} :
    Safe (load b offset n) ↔ offset.toNat + n ≤ b.bytes.length := by
  unfold load fetch
  split
  · rename_i hsome
    split at hsome
    · simpa
    · cases hsome
  · rename_i hnone
    split at hnone
    · cases hnone
    · rename_i hlt
      simpa using hlt

theorem load_eq_ok {b : Buffer} {offset : UInt64} {n : Nat} {raw : List UInt8}
    (h : load b offset n = .ok raw) :
    offset.toNat + n ≤ b.bytes.length ∧ raw = (b.bytes.drop offset.toNat).take n := by
  unfold load at h
  split at h
  · rename_i hsome
    cases h
    exact fetch_eq_some.mp hsome
  · cases h

theorem load_ne_no {b : Buffer} {offset : UInt64} {n : Nat} : load b offset n ≠ .no := by
  unfold load
  split <;> simp

theorem loadByte_ne_no {b : Buffer} {offset : UInt64} : loadByte b offset ≠ .no := by
  unfold loadByte
  split <;> simp

theorem loadEntry_ne_no {b : Buffer} {offset : UInt64} : loadEntry b offset ≠ .no :=
  bind_ne_no load_ne_no fun _ _ => by simp

theorem loadU64_ne_no {b : Buffer} {offset : UInt64} : loadU64 b offset ≠ .no :=
  bind_ne_no load_ne_no fun _ _ => by simp

theorem loadByte_safe {b : Buffer} {offset : UInt64} :
    Safe (loadByte b offset) ↔ offset.toNat < b.bytes.length := by
  unfold loadByte
  split
  · rename_i hsome
    simpa using (List.getElem?_eq_some_iff.mp hsome).1
  · rename_i hnone
    simpa using hnone

/-- What a load returns is what the object holds there. -/
theorem load_of_hasAt {b : Buffer} {offset : UInt64} {n : Nat} {raw : List UInt8}
    (h : HasAt b.bytes offset.toNat raw) (hn : raw.length = n)
    (hle : offset.toNat + n ≤ b.bytes.length) : load b offset n = .ok raw := by
  subst hn
  simp only [load, h.fetch hle]

/-! ## Alignment -/

/-- `bc_hrbl_align_up` on `size_t`. -/
def alignUp (value alignment : UInt64) : UInt64 :=
  (value + alignment - 1) &&& ~~~(alignment - 1)

/-- Without overflow the mask rounds up to a multiple. -/
theorem toNat_alignUp {value a : UInt64} {k : Nat} (hk : k < 64) (ha : a.toNat = 2 ^ k)
    (h : value.toNat + (2 ^ k - 1) < 2 ^ 64) :
    (alignUp value a).toNat = alignUpNat value.toNat (2 ^ k) := by
  have hpos := Nat.two_pow_pos k
  have hone : (1 : UInt64).toNat = 1 := rfl
  have hlow : (a - 1).toNat = 2 ^ k - 1 := by
    rw [UInt64.toNat_sub_of_le _ _ (by rw [UInt64.le_iff_toNat_le, hone]; omega), ha, hone]
  have hsum : (value + a - 1).toNat = value.toNat + (2 ^ k - 1) := by
    rw [UInt64.toNat_sub, UInt64.toNat_add, ha, hone]
    have hlt := a.toNat_lt
    omega
  have hnot : (~~~(a - 1)).toNat = 2 ^ 64 - (2 ^ k - 1 + 1) := by
    rw [UInt64.toNat_not, hlow, UInt64.size]
    omega
  rw [alignUp, UInt64.toNat_and, hnot, hsum, and_not_mask _ _ (by omega) h, alignUpNat]
  congr 2
  omega

theorem toNat_alignUp_four {value : UInt64} (h : value.toNat + 3 < 2 ^ 64) :
    (alignUp value 4).toNat = alignUpNat value.toNat 4 :=
  toNat_alignUp (k := 2) (by omega) rfl h

theorem toNat_alignUp_eight {value : UInt64} (h : value.toNat + 7 < 2 ^ 64) :
    (alignUp value 8).toNat = alignUpNat value.toNat 8 :=
  toNat_alignUp (k := 3) (by omega) rfl h

end Hrbl
