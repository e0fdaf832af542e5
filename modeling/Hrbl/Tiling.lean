import Hrbl.Reader
import Hrbl.Verify

/-!
# Header sections

What the two layout checks accept, and when the sections they accept tile the
file. The checks compare sums of `uint64_t` fields, so they hold modulo `2 ^ 64`
only: `Header.SumsFit` is the condition under which the equations hold of natural
numbers.
-/

namespace Hrbl

open Lib Lib.Outcome

/-! ## What the layout checks accept -/

/-- The equations of the layout checks, in the arithmetic of `uint64_t`. -/
structure Header.LayoutAccepted (header : Header) (size : UInt64) : Prop where
  magic : header.magic = magicNumber
  versionMajor : header.versionMajor = versionMajorNumber
  versionMinor : header.versionMinor ≤ versionMinorNumber
  flagsRequired : header.flags &&& flagsV1Required = flagsV1Required
  flagsReserved : header.flags &&& flagsV1ReservedMask = 0
  fileSize : header.fileSize = size
  reserved : ∀ i, header.reserved i = 0
  rootIndexOffset : header.rootIndexOffset = rootIndexStart
  rootCount : header.rootCount ≤ rootCountMax
  rootIndexSize : header.rootIndexSize = header.rootCount * rootEntrySize
  nodesOffset : header.nodesOffset = header.rootIndexOffset + header.rootIndexSize
  stringsOffset : header.stringsOffset = header.nodesOffset + header.nodesSize
  footerOffset : header.footerOffset = header.stringsOffset + header.stringsSize
  footerEnd : header.footerOffset + footerSize = header.fileSize

/-- A failed check keeps the status from being `OK`. -/
theorem guard_eq_ok {c : Prop} [Decidable c] {x y : VerifyStatus} (hx : x ≠ .ok) :
    (if c then x else y) = .ok ↔ ¬ c ∧ y = .ok := by
  by_cases h : c <;> simp [h, hx]

theorem guard_eq_true {c : Prop} [Decidable c] {y : Bool} :
    (if c then false else y) = true ↔ ¬ c ∧ y = true := by
  by_cases h : c <;> simp [h]

theorem verifyHeaderLayout_eq_ok {header : Header} {size : UInt64} :
    verifyHeaderLayout header size = .ok ↔ header.LayoutAccepted size := by
  simp only [verifyHeaderLayout, guard_eq_ok, ne_eq, reduceCtorEq, not_false_eq_true, not_not,
    not_exists, and_true]
  constructor
  · rintro ⟨h1, h2, h3, h4, h5, h6, h7, h8, h9, h10, h11, h12, h13, h14⟩
    exact ⟨h1, h2, UInt16.not_lt.mp h3, h4, h5, h6, h7, h8, UInt64.not_lt.mp h9, h10, h11, h12,
      h13, h14⟩
  · intro h
    exact ⟨h.magic, h.versionMajor, UInt16.not_lt.mpr h.versionMinor, h.flagsRequired,
      h.flagsReserved, h.fileSize, h.reserved, h.rootIndexOffset, UInt64.not_lt.mpr h.rootCount,
      h.rootIndexSize, h.nodesOffset, h.stringsOffset, h.footerOffset, h.footerEnd⟩

theorem readerHeaderLayoutValid_eq_true {header : Header} {size : UInt64} :
    readerHeaderLayoutValid header size = true ↔ header.LayoutAccepted size := by
  simp only [readerHeaderLayoutValid, guard_eq_true, ne_eq, not_not, decide_eq_true_eq]
  constructor
  · rintro ⟨h1, h2, h3, h4, h5, h6, h7, h8, h9, h10, h11, h12, h13, h14⟩
    exact ⟨h1, h2, UInt16.not_lt.mp h3, h4, h5, h6, h14, h7, UInt64.not_lt.mp h8, h9, h10, h11,
      h12, h13⟩
  · intro h
    exact ⟨h.magic, h.versionMajor, UInt16.not_lt.mpr h.versionMinor, h.flagsRequired,
      h.flagsReserved, h.fileSize, h.rootIndexOffset, UInt64.not_lt.mpr h.rootCount,
      h.rootIndexSize, h.nodesOffset, h.stringsOffset, h.footerOffset, h.footerEnd, h.reserved⟩

/-! ## Tiling -/

/-- The sections follow one another and fill the file, as natural numbers. -/
structure Header.SectionsTile (header : Header) (size : UInt64) : Prop where
  rootIndexSize : header.rootIndexSize.toNat = 24 * header.rootCount.toNat
  nodesOffset : 128 + header.rootIndexSize.toNat = header.nodesOffset.toNat
  stringsOffset : header.nodesOffset.toNat + header.nodesSize.toNat = header.stringsOffset.toNat
  footerOffset : header.stringsOffset.toNat + header.stringsSize.toNat = header.footerOffset.toNat
  footerEnd : header.footerOffset.toNat + 32 = size.toNat
  ordered : 128 ≤ header.nodesOffset.toNat ∧
    header.nodesOffset.toNat ≤ header.stringsOffset.toNat ∧
    header.stringsOffset.toNat ≤ header.footerOffset.toNat ∧
    header.footerOffset.toNat < size.toNat

/-- The sizes the header announces add up to a `uint64_t`. -/
def Header.SumsFit (header : Header) : Prop :=
  160 + 24 * header.rootCount.toNat + header.nodesSize.toNat + header.stringsSize.toNat < 2 ^ 64

instance (header : Header) : Decidable header.SumsFit :=
  inferInstanceAs (Decidable (_ < _))

/-- The accepted equations, read as equations modulo `2 ^ 64`. The limit on
`root_count` keeps the product from wrapping, and `160 ≤ size` the last sum. -/
theorem Header.LayoutAccepted.toNat {header : Header} {size : UInt64}
    (h : header.LayoutAccepted size) (hsize : 160 ≤ size) :
    header.rootIndexSize.toNat = 24 * header.rootCount.toNat ∧
    header.nodesOffset.toNat = (128 + 24 * header.rootCount.toNat) % 2 ^ 64 ∧
    header.stringsOffset.toNat = (header.nodesOffset.toNat + header.nodesSize.toNat) % 2 ^ 64 ∧
    header.footerOffset.toNat = (header.stringsOffset.toNat + header.stringsSize.toNat) % 2 ^ 64 ∧
    header.footerOffset.toNat + 32 = size.toNat := by
  have hcount := UInt64.le_iff_toNat_le.mp h.rootCount
  have hsize' := UInt64.le_iff_toNat_le.mp hsize
  have hsizelt := size.toNat_lt
  have hfooter := header.footerOffset.toNat_lt
  have hproduct : header.rootIndexSize.toNat = 24 * header.rootCount.toNat := by
    rw [h.rootIndexSize, UInt64.toNat_mul, show rootEntrySize.toNat = 24 from rfl]
    rw [show rootCountMax.toNat = 768614336404564650 from rfl] at hcount
    omega
  have hend := congrArg UInt64.toNat (h.footerEnd.trans h.fileSize)
  rw [UInt64.toNat_add, show footerSize.toNat = 32 from rfl] at hend
  rw [show (160 : UInt64).toNat = 160 from rfl] at hsize'
  refine ⟨hproduct, ?_, ?_, ?_, ?_⟩
  · rw [h.nodesOffset, h.rootIndexOffset, UInt64.toNat_add, hproduct,
      show rootIndexStart.toNat = 128 from rfl]
  · rw [h.stringsOffset, UInt64.toNat_add]
  · rw [h.footerOffset, UInt64.toNat_add]
  · omega

/-- Sections that tile have sizes that add up to the file's, and no wrap hides in
sums that fit. -/
theorem Header.LayoutAccepted.sectionsTile_iff {header : Header} {size : UInt64}
    (h : header.LayoutAccepted size) (hsize : 160 ≤ size) :
    header.SectionsTile size ↔ header.SumsFit := by
  obtain ⟨hroot, hnodes, hstrings, hfooter, hend⟩ := h.toNat hsize
  have hsizelt := size.toNat_lt
  constructor
  · intro t
    have h1 := t.nodesOffset
    have h2 := t.stringsOffset
    have h3 := t.footerOffset
    unfold Header.SumsFit
    omega
  · intro hfit
    unfold Header.SumsFit at hfit
    have h1 : 128 + 24 * header.rootCount.toNat = header.nodesOffset.toNat := by omega
    have h2 : header.nodesOffset.toNat + header.nodesSize.toNat = header.stringsOffset.toNat := by
      omega
    have h3 : header.stringsOffset.toNat + header.stringsSize.toNat
        = header.footerOffset.toNat := by omega
    exact ⟨hroot, by omega, h2, h3, hend, by omega⟩

/-- Both layout checks accept exactly the headers whose equations hold modulo
`2 ^ 64`; the sections of such a header tile the file if and only if its sums fit. -/
theorem header_sections_tile_iff (header : Header) (size : UInt64) (hsize : 160 ≤ size) :
    (verifyHeaderLayout header size = .ok →
      (header.SectionsTile size ↔ header.SumsFit)) ∧
    (readerHeaderLayoutValid header size = true →
      (header.SectionsTile size ↔ header.SumsFit)) :=
  ⟨fun h => (verifyHeaderLayout_eq_ok.mp h).sectionsTile_iff hsize,
    fun h => (readerHeaderLayoutValid_eq_true.mp h).sectionsTile_iff hsize⟩

/-- A header of a 160-byte file whose nodes section is `2 ^ 64 - 136` bytes long, so
that the strings section starts eight bytes below the file. -/
def wrappingHeader : Header where
  magic := magicNumber
  versionMajor := 1
  versionMinor := 0
  fileSize := 160
  flags := flagsV1Required
  rootCount := 0
  rootIndexOffset := 128
  rootIndexSize := 0
  nodesOffset := 128
  nodesSize := 0xFFFFFFFFFFFFFF78
  stringsOffset := 0xFFFFFFFFFFFFFFF8
  stringsSize := 136
  stringsCount := 0
  footerOffset := 128
  checksumXxh3 := 0x2D06800538D394C2
  reserved := fun _ => 0

/-- A header of a 272-byte file with two root entries, 40 bytes of nodes and two strings in
24 bytes. -/
def tiledHeader : Header :=
  { wrappingHeader with
    fileSize := 272
    rootCount := 2
    rootIndexSize := 48
    nodesOffset := 176
    nodesSize := 40
    stringsOffset := 216
    stringsSize := 24
    stringsCount := 2
    footerOffset := 240 }

/-- Both checks accept it, and its sections tile the file. -/
theorem header_sections_tile_iff_sections : verifyHeaderLayout tiledHeader 272 = .ok ∧
    readerHeaderLayoutValid tiledHeader 272 = true ∧ tiledHeader.SectionsTile 272 := by
  have hverified : verifyHeaderLayout tiledHeader 272 = .ok := by decide
  have hsums : tiledHeader.SumsFit := by decide
  refine ⟨hverified, by decide, ?_⟩
  exact ((header_sections_tile_iff tiledHeader 272 (by decide)).1 hverified).mpr hsums

/-- Both checks accept the wrapping header, whose sections do not tile. -/
theorem wrappingHeader_not_tiled :
    verifyHeaderLayout wrappingHeader 160 = .ok ∧
    readerHeaderLayoutValid wrappingHeader 160 = true ∧
    ¬ wrappingHeader.SectionsTile 160 :=
  ⟨by decide, by decide, fun t => absurd t.footerOffset (by decide)⟩

end Hrbl
