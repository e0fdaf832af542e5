import Hrbl.RootScan
import Hrbl.Search

/-!
# Listing and lookup of roots

The root index of a verified file, seen from the two calls of the reader that read it:
`root_at_offset`, which lists it by position, and `find_root_offset`, which searches it by
hash. They meet at the entries that store the hash of their key, and this is what the
verifier leaves open: it reads no key of the root index.
-/

namespace Hrbl

open Lib Lib.Outcome

/-! ## Entries at a place -/

/-- An entry of a list is at its own place. -/
theorem hasAt_entry {file : Bytes} {entries : List Entry} {entry : Entry} {place i : Nat}
    (h : HasAt file place (entries.flatMap Entry.encode)) (hi : entries[i]? = some entry) :
    HasAt file (place + i * 24) entry.encode := h.flatMap Entry.length_encode hi

theorem le_length_of_hasAt_entry {file : Bytes} {place : Nat} {entry : Entry}
    (h : HasAt file place entry.encode) : place + 24 ≤ file.length := by
  have hlen := entry.length_encode
  have hle := h.le_length fun hnil => by
    rw [hnil] at hlen
    cases hlen
  rwa [hlen] at hle

/-- The reader reads the entry that is there. -/
theorem readEntry_of_hasAt {r : Reader} {offset : UInt64} {entry : Entry}
    (h : HasAt r.base.bytes offset.toNat entry.encode) : readEntry r offset = .ok entry := by
  have hle := le_length_of_hasAt_entry h
  have hlt := r.base.length_lt
  have hend : (offset + rootEntrySize).toNat = offset.toNat + 24 := by
    rw [UInt64.toNat_add, show rootEntrySize.toNat = 24 from rfl]
    omega
  rw [readEntry, if_neg, loadEntry_eq_ok.mpr h]
  rw [gt_iff_lt, UInt64.lt_iff_toNat_lt, hend, Buffer.toNat_size]
  omega

/-- A sorted list of entries in the file can be searched. -/
theorem indexed_of_hasAt {r : Reader} {start : UInt64} {entries : List Entry}
    (h : HasAt r.base.bytes start.toNat (entries.flatMap Entry.encode))
    (hsorted : entries.Pairwise fun a b => a.keyHash64 ≤ b.keyHash64) :
    Indexed r start entries := by
  have hlt := r.base.length_lt
  refine ⟨fun i entry hi => readEntry_of_hasAt ?_, hsorted, ?_⟩
  · have hat := hasAt_entry h hi
    have hle := le_length_of_hasAt_entry hat
    have hplace : (start + UInt64.ofNat i * rootEntrySize).toNat = start.toNat + i * 24 := by
      rw [UInt64.toNat_add, UInt64.toNat_mul, UInt64.toNat_ofNat',
        show rootEntrySize.toNat = 24 from rfl]
      omega
    rwa [hplace]
  · rcases Nat.eq_zero_or_pos entries.length with hzero | hpos
    · rw [hzero]
      omega
    · -- the last entry is inside the file
      obtain ⟨last, hlast⟩ : ∃ last, entries[entries.length - 1]? = some last :=
        ⟨_, List.getElem?_eq_getElem (by omega)⟩
      have hle := le_length_of_hasAt_entry (hasAt_entry h hlast)
      omega

/-! ## Searches of a run -/

/-- A run of so many entries from an offset on, as the bytes there say. -/
def entriesAt (r : Reader) (start : UInt64) (count : Nat) : List Entry :=
  (List.range count).map fun i =>
    Entry.decode ((r.base.bytes.drop (start.toNat + i * 24)).take 24)

/-- The key of an entry is this one, in range. -/
def KeyHeld (r : Reader) (entry : Entry) (key : Bytes) : Prop :=
  entry.keyLength.toNat = key.length ∧
    HasAt r.base.bytes (entry.keyPoolOffset.toNat + 4) key

/-- The comparison of keys says whether the key is held. -/
theorem keyEquals_iff {r : Reader} {entry : Entry} {key : Bytes} (hkey : key.length < 2 ^ 64) :
    keyEquals r entry key = .ok true ↔ KeyHeld r entry key := by
  have hlength : (UInt64.ofNat key.length).toNat = key.length := by
    rw [UInt64.toNat_ofNat']
    exact Nat.mod_eq_of_lt hkey
  have hfour : (4 : UInt64).toNat = 4 := rfl
  have hpool := entry.keyPoolOffset.toNat_lt
  have hlen := entry.keyLength.toNat_lt
  have hsame : entry.keyLength.toUInt64 = UInt64.ofNat key.length ↔
      entry.keyLength.toNat = key.length := by
    rw [← UInt64.toNat_inj, UInt32.toNat_toUInt64, hlength]
  have hplace : (entry.keyPoolOffset.toUInt64 + 4).toNat = entry.keyPoolOffset.toNat + 4 := by
    rw [UInt64.toNat_add, UInt32.toNat_toUInt64, hfour]
    omega
  rw [keyEquals, KeyHeld]
  dsimp only
  by_cases hequal : entry.keyLength.toNat = key.length
  · rw [if_neg (not_not.mpr (hsame.mpr hequal))]
    by_cases hnil : key = []
    · -- an empty key is not read
      subst hnil
      rw [if_pos (by rfl)]
      exact iff_of_true rfl ⟨hequal, HasAt.nil _ _⟩
    · have hpos : 0 < key.length := List.length_pos_iff.mpr hnil
      have hzero : UInt64.ofNat key.length ≠ 0 := fun hzero => by
        have hnat := congrArg UInt64.toNat hzero
        rw [hlength] at hnat
        exact absurd hnat (Nat.ne_of_gt hpos)
      have hend : (entry.keyPoolOffset.toUInt64 + 4 + UInt64.ofNat key.length).toNat =
          entry.keyPoolOffset.toNat + 4 + key.length := by
        rw [UInt64.toNat_add, hplace, hlength]
        omega
      have hover : entry.keyPoolOffset.toUInt64 + 4 + UInt64.ofNat key.length > r.size ↔
          r.base.bytes.length < entry.keyPoolOffset.toNat + 4 + key.length := by
        rw [gt_iff_lt, UInt64.lt_iff_toNat_lt, hend, Buffer.toNat_size]
      rw [if_neg hzero]
      by_cases hinside : r.base.bytes.length < entry.keyPoolOffset.toNat + 4 + key.length
      · -- a key behind the end of the file is not held
        rw [if_pos (hover.mpr hinside)]
        refine iff_of_false (fun h => by cases h) fun h => ?_
        have hle := h.2.le_length hnil
        omega
      · rw [if_neg fun h => hinside (hover.mp h), load_ok_of_le (by rw [hplace]; omega), ok_bind,
          hplace]
        constructor
        · intro h
          have hdecide := Outcome.ok.inj h
          exact ⟨hequal, List.prefix_iff_eq_take.mpr (of_decide_eq_true hdecide).symm⟩
        · rintro ⟨-, hat⟩
          exact congrArg Outcome.ok (decide_eq_true (List.prefix_iff_eq_take.mp hat).symm)
  · rw [if_pos fun h => hequal (hsame.mp h)]
    exact iff_of_false (fun h => by cases h) fun h => hequal h.1

section

variable {r : Reader} {start entryCount : UInt64}

theorem length_entriesAt (r : Reader) (start : UInt64) (count : Nat) :
    (entriesAt r start count).length = count := by
  rw [entriesAt, List.length_map, List.length_range]

/-- A place of the run is read. -/
theorem readEntry_entriesAt
    (hinside : start.toNat + entryCount.toNat * 24 ≤ r.base.bytes.length) {i : Nat}
    {entry : Entry} (hget : (entriesAt r start entryCount.toNat)[i]? = some entry) :
    readEntry r (start + UInt64.ofNat i * rootEntrySize) = .ok entry := by
  obtain ⟨hi, hentry⟩ := List.getElem?_eq_some_iff.mp hget
  rw [length_entriesAt] at hi
  rw [← hentry]
  simp only [entriesAt, List.getElem_map, List.getElem_range]
  have hlt := r.base.length_lt
  have hplace : (start + UInt64.ofNat i * rootEntrySize).toNat = start.toNat + i * 24 := by
    rw [UInt64.toNat_add, UInt64.toNat_mul, UInt64.toNat_ofNat',
      show rootEntrySize.toNat = 24 from rfl]
    omega
  refine readEntry_of_hasAt ?_
  rw [hplace, Entry.encode_decode]
  · exact List.take_prefix _ _
  · rw [List.length_take, List.length_drop]
    omega

theorem indexed_entriesAt
    (hinside : start.toNat + entryCount.toNat * 24 ≤ r.base.bytes.length)
    (hsorted : (entriesAt r start entryCount.toNat).Pairwise
      fun a b => a.keyHash64 ≤ b.keyHash64) :
    Indexed r start (entriesAt r start entryCount.toNat) := by
  have hlt := r.base.length_lt
  refine ⟨fun i entry => readEntry_entriesAt hinside, hsorted, ?_⟩
  rw [length_entriesAt]
  omega

/-- What a search of a run inside the file returns is an entry of the run with the hash and the
key. -/
theorem binarySearchEntries_sound
    (hinside : start.toNat + entryCount.toNat * 24 ≤ r.base.bytes.length) {targetHash : UInt64}
    {key : Bytes} (hkey : key.length < 2 ^ 64) {entry : Entry}
    (hfound : binarySearchEntries r start entryCount targetHash key = .ok entry) :
    entry ∈ entriesAt r start entryCount.toNat ∧ entry.keyHash64 = targetHash ∧
      KeyHeld r entry key := by
  obtain ⟨i, hi, hread, hhash, hequal⟩ := binarySearchEntries_hit hfound
  rw [UInt64.lt_iff_toNat_lt] at hi
  obtain ⟨there, hget⟩ : ∃ there, (entriesAt r start entryCount.toNat)[i.toNat]? = some there :=
    ⟨_, List.getElem?_eq_getElem (by rw [length_entriesAt]; exact hi)⟩
  have hthere := readEntry_entriesAt hinside hget
  rw [UInt64.ofNat_toNat, hread] at hthere
  cases hthere
  exact ⟨List.mem_of_getElem? hget, hhash, (keyEquals_iff hkey).mp hequal⟩

theorem tableSafe_entriesAt
    (hinside : start.toNat + entryCount.toNat * 24 ≤ r.base.bytes.length) :
    TableSafe r start entryCount := by
  intro i hi
  rw [UInt64.lt_iff_toNat_lt] at hi
  obtain ⟨entry, hget⟩ : ∃ entry, (entriesAt r start entryCount.toNat)[i.toNat]? = some entry :=
    ⟨_, List.getElem?_eq_getElem (by rw [length_entriesAt]; exact hi)⟩
  have hread := readEntry_entriesAt hinside hget
  rw [UInt64.ofNat_toNat] at hread
  rw [hread]
  exact safe_ok entry

/-- A search of a run inside the file reads inside the file, and what it returns is an entry of
the run with the hash and the key. When the hashes do not decrease, it returns one if there is
one. -/
theorem binarySearchEntries_correct
    (hinside : start.toNat + entryCount.toNat * 24 ≤ r.base.bytes.length) (targetHash : UInt64)
    {key : Bytes} (hkey : key.length < 2 ^ 64) :
    binarySearchEntries r start entryCount targetHash key ≠ .fault ∧
    (∀ entry, binarySearchEntries r start entryCount targetHash key = .ok entry →
      entry ∈ entriesAt r start entryCount.toNat ∧ entry.keyHash64 = targetHash ∧
        KeyHeld r entry key) ∧
    ((entriesAt r start entryCount.toNat).Pairwise (fun a b => a.keyHash64 ≤ b.keyHash64) →
      (∃ entry ∈ entriesAt r start entryCount.toNat, entry.keyHash64 = targetHash ∧
        KeyHeld r entry key) →
      ∃ found, binarySearchEntries r start entryCount targetHash key = .ok found) := by
  have hsafe : Safe (binarySearchEntries r start entryCount targetHash key) :=
    binarySearchEntries_safe (tableSafe_entriesAt hinside) hkey
  refine ⟨hsafe, fun entry hfound => binarySearchEntries_sound hinside hkey hfound, ?_⟩
  rintro hsorted ⟨entry, hmem, hhash, hheld⟩
  have hequal : ∀ e ∈ entriesAt r start entryCount.toNat, ∃ b, keyEquals r e key = .ok b :=
    fun e _ => keyEquals_ok r e hkey
  have hanswers := binarySearchEntries_spec (indexed_entriesAt hinside hsorted) hequal
    (length_entriesAt r start entryCount.toNat).symm targetHash
  cases hresult : binarySearchEntries r start entryCount targetHash key with
  | ok found => exact ⟨found, rfl⟩
  | no =>
    rw [hresult] at hanswers
    have hnone := hanswers entry hmem hhash
    rw [(keyEquals_iff hkey).mpr hheld] at hnone
    cases hnone
  | fault => exact absurd hresult hsafe

end

/-- Two keys of one hash, `b` in front of `a`, and a search for `a`. -/
theorem binarySearchEntries_correct_collision :
    ∃ (r : Reader) (found : Entry), (entriesAt r 0 2).map Entry.keyHash64 = [7, 7] ∧
      binarySearchEntries r 0 2 7 [0x61] = .ok found ∧ found ∈ entriesAt r 0 2 ∧
      KeyHeld r found [0x61] := by
  let entryFor (place : UInt32) : Entry :=
    { keyHash64 := 7, keyPoolOffset := place, keyLength := 1, valueOffset := 0 }
  let r : Reader :=
    { base := ⟨(entryFor 44).encode ++ (entryFor 45).encode ++ [0x62, 0x61], by decide⟩
      header := Header.decode [] }
  have hinside : (0 : UInt64).toNat + (2 : UInt64).toNat * 24 ≤ r.base.bytes.length := by decide
  have hkey : [(0x61 : UInt8)].length < 2 ^ 64 := by decide
  obtain ⟨-, hsound, hcomplete⟩ := binarySearchEntries_correct hinside 7 hkey
  have hentries : entriesAt r 0 (2 : UInt64).toNat = [entryFor 44, entryFor 45] := by decide
  rw [hentries] at hsound hcomplete
  obtain ⟨found, hfound⟩ := hcomplete (by decide)
    ⟨entryFor 45, by decide, rfl, rfl, [], rfl⟩
  obtain ⟨hmem, -, hheld⟩ := hsound found hfound
  refine ⟨r, found, by decide, hfound, ?_, hheld⟩
  exact hentries ▸ hmem

/-! ## Roots of a verified file -/

section

variable {hash64 : Bytes → UInt64} {b : Buffer} {r : Reader}
  (hverify : verifyBuffer hash64 b = .ok .ok) (hopen : openBuffer true b = .ok r)

include hverify hopen

/-- What the verifier has found of a file is about the header that the reader has of it. -/
theorem verified_opened : r.base = b ∧ Enveloped r.base r.header ∧
    (∃ payload, load r.base r.header.rootIndexOffset
        (r.header.footerOffset - r.header.rootIndexOffset).toNat = .ok payload ∧
      hash64 payload = r.header.checksumXxh3) ∧
    (∃ strings, PoolHeld r.base r.header strings) ∧ ∃ entries, RootsHeld r.base r.header entries := by
  obtain ⟨rfl, henvelope⟩ := openBuffer_eq_ok.mp hopen
  obtain ⟨header, henvelope', hfound⟩ := verifyBuffer_eq_ok.mp hverify
  have hload := henvelope'.header_eq.symm.trans henvelope.header_eq
  cases hload
  exact ⟨rfl, henvelope, hfound⟩

/-- The root index of a file that verifies and is open. -/
theorem rootsHeld_of_verifyBuffer :
    r.header.rootIndexOffset = 128 ∧ ∃ entries, RootsHeld r.base r.header entries := by
  obtain ⟨-, henvelope, -, -, hroots⟩ := verified_opened hverify hopen
  exact ⟨henvelope.layout.rootIndexOffset, hroots⟩

end

theorem RootsHeld.indexed {r : Reader} {entries : List Entry}
    (h : RootsHeld r.base r.header entries) (hstart : r.header.rootIndexOffset = 128) :
    Indexed r r.header.rootIndexOffset entries := by
  refine indexed_of_hasAt ?_ (h.sorted.imp fun hlt => UInt64.le_of_lt hlt)
  rw [hstart]
  exact h.held

/-- What `root_at_offset` returns is what an entry says. -/
theorem rootAtOffset_eq_ok {r : Reader} {entries : List Entry}
    (h : RootsHeld r.base r.header entries) (hstart : r.header.rootIndexOffset = 128)
    {i : UInt64} {range : Range} {v : UInt64} (hroot : rootAtOffset r i = .ok (range, v)) :
    ∃ entry, entries[i.toNat]? = some entry ∧
      readEntry r (r.header.rootIndexOffset + i * rootEntrySize) = .ok entry ∧
      range = ⟨entry.keyPoolOffset.toUInt64 + 4, entry.keyLength.toUInt64⟩ ∧
      range.offset + range.length ≤ r.size ∧ v = entry.valueOffset := by
  rw [rootAtOffset] at hroot
  split at hroot
  · cases hroot
  · rename_i hlt
    rw [ge_iff_le, UInt64.not_le, UInt64.lt_iff_toNat_lt, ← h.count_eq] at hlt
    obtain ⟨entry, hget⟩ : ∃ found, entries[i.toNat]? = some found :=
      ⟨_, List.getElem?_eq_getElem hlt⟩
    have hread := (h.indexed hstart).read _ entry hget
    rw [UInt64.ofNat_toNat] at hread
    rw [hread, ok_bind, entryKeyRange] at hroot
    refine ⟨entry, hget, hread, ?_⟩
    obtain ⟨key, hkey, hroot⟩ := bind_eq_ok.mp hroot
    split at hkey
    · cases hkey
    · rename_i hinside
      cases hkey
      cases hroot
      exact ⟨rfl, UInt64.not_lt.mp hinside, rfl⟩

theorem rootAtOffset_of_getElem? {r : Reader} {entries : List Entry}
    (h : RootsHeld r.base r.header entries) (hstart : r.header.rootIndexOffset = 128)
    {i : UInt64} {entry : Entry} (hget : entries[i.toNat]? = some entry)
    (hinside : entry.keyPoolOffset.toUInt64 + 4 + entry.keyLength.toUInt64 ≤ r.size) :
    rootAtOffset r i =
      .ok (⟨entry.keyPoolOffset.toUInt64 + 4, entry.keyLength.toUInt64⟩, entry.valueOffset) := by
  obtain ⟨hlt, -⟩ := List.getElem?_eq_some_iff.mp hget
  have hread := (h.indexed hstart).read _ entry hget
  rw [UInt64.ofNat_toNat] at hread
  rw [rootAtOffset, if_neg, hread, ok_bind, entryKeyRange, if_neg (UInt64.not_lt.mpr hinside)]
  · rfl
  · rw [ge_iff_le, UInt64.not_le, UInt64.lt_iff_toNat_lt, ← h.count_eq]
    exact hlt

/-- The key that an entry names equals itself. -/
theorem keyEquals_of_load {r : Reader} {entry : Entry} {key : Bytes}
    (hinside : entry.keyPoolOffset.toUInt64 + 4 + entry.keyLength.toUInt64 ≤ r.size)
    (hkey : load r.base (entry.keyPoolOffset.toUInt64 + 4) entry.keyLength.toUInt64.toNat =
      .ok key) : key.length < 2 ^ 64 ∧ keyEquals r entry key = .ok true := by
  have hlength : key.length = entry.keyLength.toUInt64.toNat := (hasAt_of_load hkey).2
  have hlt := entry.keyLength.toUInt64.toNat_lt
  have hsame : UInt64.ofNat key.length = entry.keyLength.toUInt64 := by
    rw [hlength, UInt64.ofNat_toNat]
  refine ⟨by omega, ?_⟩
  rw [keyEquals, hsame, if_neg (not_not.mpr rfl)]
  split
  · rfl
  · rw [if_neg (UInt64.not_lt.mpr hinside), hlength, hkey, ok_bind, decide_eq_true rfl]
    rfl

/-! ## A file with one root -/

section

variable (hash64 : Bytes → UInt64) (stored : UInt64)

/-- An entry for the key `a`, whatever the hash it stores. -/
def labelledEntry : Entry where
  keyHash64 := stored
  keyPoolOffset := 160
  keyLength := 1
  valueOffset := 152

def labelledPayload : Bytes :=
  (labelledEntry stored).encode ++ List.replicate 8 0 ++ poolBytes [[0x61]]

def labelledHeader : Header where
  magic := magicNumber
  versionMajor := 1
  versionMinor := 0
  fileSize := 200
  flags := flagsV1Required
  rootCount := 1
  rootIndexOffset := 128
  rootIndexSize := 24
  nodesOffset := 152
  nodesSize := 8
  stringsOffset := 160
  stringsSize := 8
  stringsCount := 1
  footerOffset := 168
  checksumXxh3 := hash64 (labelledPayload stored)
  reserved := fun _ => 0

def labelledFooter : Footer where
  checksumXxh3 := hash64 (labelledPayload stored)
  fileSize := 200
  magicEnd := magicNumber
  reserved := fun _ => 0

theorem length_labelledPayload : (labelledPayload stored).length = 40 := by
  rw [labelledPayload, List.length_append, List.length_append, Entry.length_encode]
  rfl

/-- A file with the root `a`, a null. -/
def labelledFile : Buffer where
  bytes := (labelledHeader hash64 stored).encode ++ labelledPayload stored
    ++ (labelledFooter hash64 stored).encode
  length_lt := by
    rw [List.length_append, List.length_append, Header.length_encode, Footer.length_encode,
      length_labelledPayload]
    decide

theorem labelledFile_sealed :
    Sealed (labelledFile hash64 stored) (labelledHeader hash64 stored)
      (labelledPayload stored) := by
  have hsize : (labelledFile hash64 stored).size = 200 := by
    apply UInt64.toNat_inj.mp
    rw [Buffer.toNat_size, labelledFile, List.length_append, List.length_append,
      Header.length_encode, Footer.length_encode, length_labelledPayload]
    rfl
  refine ⟨?_, labelledFooter hash64 stored, rfl, rfl, rfl, rfl⟩
  rw [hsize]
  exact ⟨rfl, rfl, UInt16.le_refl 0,
    show flagsV1Required &&& flagsV1Required = flagsV1Required by decide,
    show flagsV1Required &&& flagsV1ReservedMask = 0 by decide, rfl, fun _ => rfl, rfl,
    show (1 : UInt64) ≤ rootCountMax by decide, rfl, rfl, rfl, rfl, rfl⟩

theorem labelledFile_roots :
    RootsHeld (labelledFile hash64 stored) (labelledHeader hash64 stored)
      [labelledEntry stored] := by
  have hpayload := (labelledFile_sealed hash64 stored).hasAt
  rw [labelledPayload, List.append_assoc, hasAt_append] at hpayload
  refine ⟨?_, rfl, List.pairwise_singleton _ _, ?_⟩
  · rw [List.flatMap_cons, List.flatMap_nil, List.append_nil]
    exact hpayload.1
  · intro entry hentry
    rw [List.mem_singleton.mp hentry]
    exact ⟨show (152 : UInt64) ≤ 152 by decide, show (152 : UInt64) < 160 by decide,
      show (160 : UInt64) ≤ 160 by decide, show (160 : UInt64) + 4 + 1 ≤ 160 + 8 by decide⟩

theorem labelledFile_record :
    HasAt (labelledFile hash64 stored).bytes 160 (record [0x61]) := by
  have hpayload := (labelledFile_sealed hash64 stored).hasAt
  have hlength : ((labelledEntry stored).encode ++ List.replicate 8 0).length = 32 := by
    rw [List.length_append, Entry.length_encode, List.length_replicate]
  rw [labelledPayload, hasAt_append, hlength, poolBytes, List.flatMap_cons, List.flatMap_nil,
    List.append_nil] at hpayload
  exact hpayload.2

theorem labelledFile_verified :
    verifyBuffer hash64 (labelledFile hash64 stored) = .ok .ok := by
  have hsealed := labelledFile_sealed hash64 stored
  refine verifyBuffer_eq_ok.mpr ⟨labelledHeader hash64 stored, hsealed.enveloped,
    ⟨_, hsealed.load_payload, rfl⟩, ⟨[[0x61]], ?_⟩, _, labelledFile_roots hash64 stored⟩
  refine ⟨fun s hs => ?_, by decide, ?_, rfl, rfl⟩
  · rw [List.mem_singleton.mp hs]
    exact ⟨['a'], rfl⟩
  · rw [poolBytes, List.flatMap_cons, List.flatMap_nil, List.append_nil]
    exact labelledFile_record hash64 stored

def labelledReader : Reader where
  base := labelledFile hash64 stored
  header := labelledHeader hash64 stored

theorem labelledReader_roots :
    RootsHeld (labelledReader hash64 stored).base (labelledReader hash64 stored).header
      [labelledEntry stored] := labelledFile_roots hash64 stored

theorem labelledReader_lists :
    rootAtOffset (labelledReader hash64 stored) 0 = .ok (⟨164, 1⟩, 152) ∧
      load (labelledReader hash64 stored).base 164 1 = .ok [0x61] := by
  have hsealed := labelledFile_sealed hash64 stored
  have hsize : (labelledReader hash64 stored).size = 200 := hsealed.layout.fileSize.symm
  have hlength := hsealed.length_eq
  rw [length_labelledPayload] at hlength
  constructor
  · have hget : [labelledEntry stored][(0 : UInt64).toNat]? = some (labelledEntry stored) :=
      rfl
    refine rootAtOffset_of_getElem? (labelledReader_roots hash64 stored) rfl hget ?_
    rw [hsize]
    exact (show (160 : UInt64) + 4 + 1 ≤ 200 by decide)
  · have hrecord := labelledFile_record hash64 stored
    rw [hasAt_record_iff] at hrecord
    exact load_of_hasAt hrecord.2.1 rfl
      (show 164 + 1 ≤ (labelledFile hash64 stored).bytes.length by omega)

end

/-! ## A file with three roots -/

/-- An entry of a root with a key of this length, under a hash that counts. -/
def countedEntry (keyLength keyPoolOffset : UInt32) (valueOffset : UInt64) : Entry where
  keyHash64 := keyLength.toUInt64
  keyPoolOffset := keyPoolOffset
  keyLength := keyLength
  valueOffset := valueOffset

def countedPayload : Bytes :=
  [countedEntry 1 224 200, countedEntry 2 232 208, countedEntry 3 240 216].flatMap Entry.encode ++
    (List.replicate 24 0 ++ poolBytes [[0x61], [0x62, 0x62], [0x63, 0x63, 0x63]])

def countedHeader : Header :=
  { labelledHeader (fun _ => 120) 0 with
    fileSize := 280
    rootCount := 3
    rootIndexSize := 72
    nodesOffset := 200
    nodesSize := 24
    stringsOffset := 224
    stringsSize := 24
    stringsCount := 3
    footerOffset := 248 }

/-- A file with the roots `a`, `bb` and `ccc`, nulls, under the hash that is the length. -/
def countedFile : Buffer where
  bytes := countedHeader.encode ++ countedPayload ++
    { labelledFooter (fun _ => 120) 0 with fileSize := 280 : Footer }.encode
  length_lt := by decide +kernel

theorem countedFile_opened : openBuffer true countedFile = .ok ⟨countedFile, countedHeader⟩ := by
  have hsize : countedFile.size = 280 := by decide +kernel
  have hsealed : Sealed countedFile countedHeader countedPayload := by
    refine ⟨?_, _, rfl, rfl, rfl, rfl⟩
    rw [hsize]
    exact ⟨rfl, rfl, UInt16.le_refl 0, by decide, by decide, rfl, fun _ => rfl, rfl, by decide, rfl,
      rfl, rfl, rfl, rfl⟩
  exact openBuffer_eq_ok.mpr ⟨rfl, hsealed.enveloped⟩

/-! ## Roots that are found -/

/-- In a verified file, the search for the key of a listed root ends at its entry if and
only if the entry stores the hash of the key; then `find_root_offset` returns the value
that was listed. -/
theorem listed_root_found {hash64 : Bytes → UInt64} {b : Buffer} {r : Reader} {i : UInt64}
    {range : Range} {key : Bytes} {v : UInt64} {entry : Entry}
    (hverify : verifyBuffer hash64 b = .ok .ok) (hopen : openBuffer true b = .ok r)
    (hroot : rootAtOffset r i = .ok (range, v))
    (hkey : load r.base range.offset range.length.toNat = .ok key)
    (hentry : readEntry r (r.header.rootIndexOffset + i * rootEntrySize) = .ok entry) :
    (binarySearchEntries r r.header.rootIndexOffset r.header.rootCount (hash64 key) key =
        .ok entry ↔ entry.keyHash64 = hash64 key) ∧
      (entry.keyHash64 = hash64 key → findRootOffset hash64 r key = .ok v) := by
  obtain ⟨hstart, entries, hheld⟩ := rootsHeld_of_verifyBuffer hverify hopen
  obtain ⟨entry', hget, hread, rfl, hinside, rfl⟩ := rootAtOffset_eq_ok hheld hstart hroot
  rw [hread] at hentry
  cases hentry
  obtain ⟨hlength, hequal⟩ := keyEquals_of_load hinside hkey
  have hanswers := binarySearchEntries_spec (hheld.indexed hstart)
    (fun entry _ => keyEquals_ok r entry hlength) hheld.count_eq.symm (hash64 key)
  have hfound : entry.keyHash64 = hash64 key →
      binarySearchEntries r r.header.rootIndexOffset r.header.rootCount (hash64 key) key =
        .ok entry := fun hhash =>
    hanswers.eq_of_mem hheld.sorted (List.mem_of_getElem? hget) hhash hequal
  refine ⟨⟨fun h => ?_, hfound⟩, fun hhash => ?_⟩
  · rw [h] at hanswers
    exact hanswers.2.1
  · rw [findRootOffset, hfound hhash]
    rfl

/-- Each of the three is found, where the search starts and on either side of it. -/
theorem listed_root_found_counted :
    verifyBuffer (fun bytes => UInt64.ofNat bytes.length) countedFile = .ok .ok ∧
    ∃ r, openBuffer true countedFile = .ok r ∧ ∀ i : Fin 3, ∃ range key entry,
      rootAtOffset r (UInt64.ofNat i) = .ok (range, 200 + 8 * UInt64.ofNat i) ∧
      load countedFile range.offset range.length.toNat = .ok key ∧
      readEntry r (128 + UInt64.ofNat i * rootEntrySize) = .ok entry ∧
      findRootOffset (fun bytes => UInt64.ofNat bytes.length) r key =
        .ok (200 + 8 * UInt64.ofNat i) := by
  have hverified : verifyBuffer (fun bytes => UInt64.ofNat bytes.length) countedFile = .ok .ok := by
    decide +kernel
  refine ⟨hverified, _, countedFile_opened, ?_⟩
  intro i
  obtain ⟨range, key, entry, hroot, hkey, hentry, hhash⟩ : ∃ range key entry,
      rootAtOffset ⟨countedFile, countedHeader⟩ (UInt64.ofNat i) =
        .ok (range, 200 + 8 * UInt64.ofNat i) ∧
      load countedFile range.offset range.length.toNat = .ok key ∧
      readEntry ⟨countedFile, countedHeader⟩ (128 + UInt64.ofNat i * rootEntrySize) = .ok entry ∧
      entry.keyHash64 = UInt64.ofNat key.length := by
    fin_cases i
    · exact ⟨⟨228, 1⟩, [0x61], countedEntry 1 224 200, by decide +kernel, by decide +kernel,
        by decide +kernel, by decide⟩
    · exact ⟨⟨236, 2⟩, [0x62, 0x62], countedEntry 2 232 208, by decide +kernel, by decide +kernel,
        by decide +kernel, by decide⟩
    · exact ⟨⟨244, 3⟩, [0x63, 0x63, 0x63], countedEntry 3 240 216, by decide +kernel,
        by decide +kernel, by decide +kernel, by decide⟩
  exact ⟨range, key, entry, hroot, hkey, hentry,
    (listed_root_found hverified countedFile_opened hroot hkey hentry).2 hhash⟩

/-- Whatever the hash function, some verified file lists a root that is not found by its key. -/
theorem listed_root_not_found : ¬∃ hash64 : Bytes → UInt64,
    ∀ (b : Buffer) (r : Reader) (i : UInt64) (range : Range) (key : Bytes) (v : UInt64),
      verifyBuffer hash64 b = .ok .ok → openBuffer true b = .ok r →
      rootAtOffset r i = .ok (range, v) →
      load r.base range.offset range.length.toNat = .ok key →
      findRootOffset hash64 r key = .ok v := by
  rintro ⟨hash64, hall⟩
  have hheld := labelledReader_roots hash64 (hash64 [0x61] + 1)
  obtain ⟨hlists, hload⟩ := labelledReader_lists hash64 (hash64 [0x61] + 1)
  have hopen := openBuffer_eq_ok (r := labelledReader hash64 (hash64 [0x61] + 1)).mpr
    ⟨rfl, (labelledFile_sealed hash64 (hash64 [0x61] + 1)).enveloped⟩
  have hfind := hall _ _ 0 _ [0x61] 152 (labelledFile_verified hash64 (hash64 [0x61] + 1))
    hopen hlists hload
  obtain ⟨entry, hsearch, -⟩ := bind_eq_ok.mp hfind
  have hanswers := binarySearchEntries_spec (hheld.indexed rfl)
    (fun entry _ => keyEquals_ok _ entry (show [0x61].length < 2 ^ 64 by decide))
    hheld.count_eq.symm (hash64 [0x61])
  rw [hsearch] at hanswers
  obtain ⟨hmem, hhash, -⟩ := hanswers
  rw [List.mem_singleton.mp hmem] at hhash
  -- the entry stores the number after the hash of its key
  have hnext : hash64 [0x61] + 1 = hash64 [0x61] + 0 := hhash.trans (UInt64.add_zero _).symm
  exact absurd ((UInt64.add_right_inj _).mp hnext) (by decide)

end Hrbl
