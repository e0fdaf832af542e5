import Hrbl.Placement
import Hrbl.Lookup

/-!
# Files of any nodes

The verifier goes through the root index and the strings pool; the nodes it leaves alone. So
any bytes between a root index and a strings pool that are in order make a file that it
accepts.
-/

namespace Hrbl

open Lib Lib.Outcome

/-- What the three sections of a file are made of. -/
structure Parts where
  entries : List Entry
  nodes : Bytes
  strings : List Bytes
deriving Repr

namespace Parts

variable (p : Parts)

def nodesStart : Nat := 128 + p.entries.length * 24

def stringsStart : Nat := p.nodesStart + p.nodes.length

def footerStart : Nat := p.stringsStart + (poolBytes p.strings).length

def payload : Bytes := p.entries.flatMap Entry.encode ++ p.nodes ++ poolBytes p.strings

variable (hash64 : Bytes → UInt64)

def header : Header where
  magic := magicNumber
  versionMajor := versionMajorNumber
  versionMinor := versionMinorNumber
  fileSize := UInt64.ofNat (p.footerStart + 32)
  flags := flagsV1Required
  rootCount := UInt64.ofNat p.entries.length
  rootIndexOffset := rootIndexStart
  rootIndexSize := UInt64.ofNat (p.entries.length * 24)
  nodesOffset := UInt64.ofNat p.nodesStart
  nodesSize := UInt64.ofNat p.nodes.length
  stringsOffset := UInt64.ofNat p.stringsStart
  stringsSize := UInt64.ofNat (poolBytes p.strings).length
  stringsCount := UInt64.ofNat p.strings.length
  footerOffset := UInt64.ofNat p.footerStart
  checksumXxh3 := hash64 p.payload
  reserved := fun _ => 0

def footer : Footer where
  checksumXxh3 := hash64 p.payload
  fileSize := UInt64.ofNat (p.footerStart + 32)
  magicEnd := magicNumber
  reserved := fun _ => 0

/-- The file of the parts. -/
def file : Bytes := (p.header hash64).encode ++ p.payload ++ (p.footer hash64).encode

/-- The root index and the strings are in order; nothing is said of the nodes. -/
structure Sound : Prop where
  size_lt : p.footerStart + 32 < 2 ^ 63
  sorted : p.entries.Pairwise fun e e' => e.keyHash64 < e'.keyHash64
  value : ∀ e ∈ p.entries, p.nodesStart ≤ e.valueOffset.toNat ∧
    e.valueOffset.toNat < p.stringsStart
  key : ∀ e ∈ p.entries, p.stringsStart ≤ e.keyPoolOffset.toNat ∧
    e.keyPoolOffset.toNat + 4 + e.keyLength.toNat ≤ p.footerStart
  utf8 : ∀ s ∈ p.strings, IsUtf8 s
  length_le : ∀ s ∈ p.strings, s.length ≤ lengthMax

theorem length_payload : 128 + p.payload.length = p.footerStart := by
  rw [payload, List.length_append, List.length_append, length_flatMap_encode, footerStart,
    stringsStart, nodesStart]
  omega

theorem length_file : (p.file hash64).length = p.footerStart + 32 := by
  have hpayload := p.length_payload
  rw [file, List.length_append, List.length_append, Header.length_encode, Footer.length_encode]
  omega

variable {p hash64} {b : Buffer}

theorem isSealed (hbytes : b.bytes = p.file hash64) : Sealed b (p.header hash64) p.payload := by
  have hlt := b.length_lt
  rw [hbytes, length_file] at hlt
  have hsize : b.size = UInt64.ofNat (p.footerStart + 32) := by
    rw [Buffer.size, hbytes, length_file]
  have hparts : p.footerStart = 128 + p.entries.length * 24 + p.nodes.length +
    (poolBytes p.strings).length := rfl
  refine ⟨?_, p.footer hash64, hbytes, rfl, rfl, rfl⟩
  constructor
  case fileSize => exact hsize.symm
  case rootCount =>
    rw [UInt64.le_iff_toNat_le, header]
    simp only
    rw [toNat_ofNat_of_lt64 (by omega)]
    have hmax : rootCountMax.toNat = (2 ^ 64 - 1) / 24 := by decide
    omega
  case rootIndexSize => exact UInt64.ofNat_mul _ _
  case nodesOffset => exact UInt64.ofNat_add _ _
  case stringsOffset => exact UInt64.ofNat_add _ _
  case footerOffset => exact UInt64.ofNat_add _ _
  case footerEnd => exact (UInt64.ofNat_add _ _).symm
  case versionMinor => exact UInt16.le_refl _
  case flagsRequired => exact (by decide : flagsV1Required &&& flagsV1Required = flagsV1Required)
  case flagsReserved => exact (by decide : flagsV1Required &&& flagsV1ReservedMask = 0)
  case reserved => exact fun _ => rfl
  all_goals rfl

/-- The places of the parts in the file. -/
theorem hasAt (hbytes : b.bytes = p.file hash64) :
    HasAt b.bytes 128 (p.entries.flatMap Entry.encode) ∧ HasAt b.bytes p.nodesStart p.nodes ∧
      HasAt b.bytes p.stringsStart (poolBytes p.strings) := by
  have hpayload := (isSealed hbytes).hasAt
  rw [payload, hasAt_append, hasAt_append, List.length_append, length_flatMap_encode,
    ← Nat.add_assoc] at hpayload
  exact ⟨hpayload.1.1, hpayload.1.2, hpayload.2⟩

theorem Sound.rootsHeld (h : p.Sound) (hbytes : b.bytes = p.file hash64) :
    RootsHeld b (p.header hash64) p.entries := by
  have hsize := h.size_lt
  have hparts : p.footerStart = 128 + p.entries.length * 24 + p.nodes.length +
    (poolBytes p.strings).length := rfl
  have hstrings : p.stringsStart = 128 + p.entries.length * 24 + p.nodes.length := rfl
  have hnodes : p.nodesStart = 128 + p.entries.length * 24 := rfl
  constructor
  case held => exact (hasAt hbytes).1
  case count_eq => exact (toNat_ofNat_of_lt64 (by omega)).symm
  case sorted => exact h.sorted
  case inSections =>
    intro entry hentry
    have hvalue := h.value entry hentry
    have hkey := h.key entry hentry
    have hbase := toNat_ofNat_of_lt64 (show p.nodesStart < 2 ^ 64 by omega)
    have hpool := toNat_ofNat_of_lt64 (show p.stringsStart < 2 ^ 64 by omega)
    have hroom := toNat_ofNat_of_lt64 (show (poolBytes p.strings).length < 2 ^ 64 by omega)
    have hfour : (4 : UInt64).toNat = 4 := rfl
    have hlength := entry.keyLength.toNat_lt
    have hplace := entry.keyPoolOffset.toNat_lt
    constructor
    all_goals
      simp only [header, UInt64.le_iff_toNat_le, UInt64.lt_iff_toNat_lt, UInt64.toNat_add,
        UInt32.toNat_toUInt64, hbase, hpool, hroom, hfour]
      omega

theorem Sound.poolHeld (h : p.Sound) (hbytes : b.bytes = p.file hash64) :
    PoolHeld b (p.header hash64) p.strings := by
  have hsize := h.size_lt
  have hparts : p.footerStart = p.stringsStart + (poolBytes p.strings).length := rfl
  have hcount : 4 * p.strings.length ≤ (poolBytes p.strings).length :=
    four_mul_length_le_poolBytes _
  have hplace : (p.header hash64).stringsOffset.toNat = p.stringsStart :=
    toNat_ofNat_of_lt64 (by omega)
  refine ⟨h.utf8, h.length_le, ?_, ?_, ?_⟩
  · rw [hplace]
    exact (hasAt hbytes).2.2
  · exact (toNat_ofNat_of_lt64 (by omega)).symm
  · exact (toNat_ofNat_of_lt64 (by omega)).symm

/-- Whatever the nodes are, the verifier accepts the file. -/
theorem Sound.verified (h : p.Sound) (hbytes : b.bytes = p.file hash64) :
    verifyBuffer hash64 b = .ok .ok := by
  have hsealed := isSealed hbytes
  exact verifyBuffer_eq_ok.mpr ⟨_, hsealed.enveloped, ⟨_, hsealed.load_payload, rfl⟩,
    ⟨_, h.poolHeld hbytes⟩, _, h.rootsHeld hbytes⟩

/-- The reader on the file. -/
theorem opened (hbytes : b.bytes = p.file hash64) :
    openBuffer true b = .ok { base := b, header := p.header hash64 } :=
  openBuffer_eq_ok.mpr ⟨rfl, (isSealed hbytes).enveloped⟩

/-- A root is found by its key, when its entry stores the hash of the key. -/
theorem Sound.findRootOffset (h : p.Sound) (hbytes : b.bytes = p.file hash64) {entry : Entry}
    {key : Bytes} (hentry : entry ∈ p.entries) (hhash : entry.keyHash64 = hash64 key)
    (hkey : KeyHeld ⟨b, p.header hash64⟩ entry key) :
    findRootOffset hash64 ⟨b, p.header hash64⟩ key = .ok entry.valueOffset := by
  have hheld : RootsHeld b (p.header hash64) p.entries := h.rootsHeld hbytes
  have hlength := entry.keyLength.toNat_lt
  have hsmall : key.length < 2 ^ 64 := by
    have heq := hkey.1
    omega
  have hindexed := RootsHeld.indexed (r := ⟨b, p.header hash64⟩) hheld rfl
  have hanswers := binarySearchEntries_spec hindexed
    (fun entry _ => keyEquals_ok _ entry hsmall) hheld.count_eq.symm (hash64 key)
  rw [Hrbl.findRootOffset, hanswers.eq_of_mem hheld.sorted hentry hhash
    ((keyEquals_iff hsmall).mpr hkey)]
  rfl

theorem Sound.exists_buffer (h : p.Sound) : ∃ b : Buffer, b.bytes = p.file hash64 :=
  ⟨⟨p.file hash64, by rw [length_file]; exact h.size_lt⟩, rfl⟩

end Parts

/-! ## Arrays put anywhere -/

/-- An array of one element, at an offset behind which its header is aligned. -/
def loneArray (child : UInt64) : Bytes :=
  [Kind.array.byte] ++ (le32 1 ++ le32 0) ++ le64 child

theorem length_loneArray (child : UInt64) : (loneArray child).length = 17 := by
  simp [loneArray, le32, le64]

/-- Wherever its bytes are in the file, the array is read as one. -/
theorem arrayBodyOffsets_loneArray {r : Reader} {offset child : UInt64}
    (h : HasAt r.base.bytes offset.toNat (loneArray child))
    (haligned : alignUp (offset + 1) 8 = offset + 1) :
    arrayBodyOffsets r offset = .ok ({ elementCount := 1, bodySizeBytes := 0 }, offset + 9) ∧
      loadU64 r.base (offset + 9) = .ok child := by
  have hlt := r.base.length_lt
  have hle := h.le_length (by simp [loneArray])
  rw [length_loneArray] at hle
  obtain ⟨hheaders, helement⟩ := hasAt_append.mp h
  obtain ⟨hkind, hheader⟩ := hasAt_append.mp hheaders
  have hone : (1 : UInt64).toNat = 1 := rfl
  have height : (8 : UInt64).toNat = 8 := rfl
  have hnine : offset + 1 + 8 = offset + 9 := by rw [UInt64.add_assoc]; rfl
  have hbody : (offset + 1).toNat = offset.toNat + 1 := by
    rw [UInt64.toNat_add, hone]
    omega
  have hstart : (offset + 9).toNat = offset.toNat + 9 := by
    rw [← hnine, UInt64.toNat_add, hbody, height]
    omega
  have hbyte := loadByte_eq_ok.mpr hkind
  have hload : loadArrayHeader r.base (offset + 1) = .ok ⟨1, 0⟩ :=
    loadArrayHeader_of_hasAt (by rw [hbody]; exact hheader)
  constructor
  · rw [arrayBodyOffsets, if_neg, hbyte, ok_bind, if_neg (not_not.mpr rfl), haligned]
    · simp only
      rw [hnine, if_neg, hload, ok_bind]
      · simp only
        rw [if_neg]
        rw [gt_iff_lt, UInt64.lt_iff_toNat_lt, UInt64.toNat_add, hstart, Buffer.toNat_size]
        change ¬r.base.bytes.length < (offset.toNat + 9 + 8) % 2 ^ 64
        omega
      · rw [gt_iff_lt, UInt64.lt_iff_toNat_lt, hstart, Buffer.toNat_size]
        omega
    · rw [ge_iff_le, UInt64.le_iff_toNat_le, Buffer.toNat_size]
      omega
  · refine loadU64_of_hasAt ?_
    rw [hstart]
    exact helement

theorem arrayAtOffset_loneArray {r : Reader} {offset child : UInt64}
    (h : HasAt r.base.bytes offset.toNat (loneArray child))
    (haligned : alignUp (offset + 1) 8 = offset + 1) : arrayAtOffset r offset 0 = .ok child := by
  obtain ⟨hbody, helement⟩ := arrayBodyOffsets_loneArray h haligned
  rw [arrayAtOffset, hbody, ok_bind]
  change loadU64 r.base (offset + 9 + 0 * arrayElementSize) = .ok child
  rw [UInt64.zero_mul, UInt64.add_zero, helement]

end Hrbl
