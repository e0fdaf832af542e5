import Hrbl.Format

/-!
# The reader

`bc_hrbl_reader.c`: opening a buffer, the root index, blocks, arrays, scalars,
path resolution and iteration. A call that returns `bool` is an `Outcome`: `ok`
with its out-parameters for `true`, `no` for `false`. Pointers into the file are
offsets from its base. `hash64` stands for `bc_hrbl_hash64`.
-/

namespace Hrbl

open Lib Lib.Outcome

/-- `struct bc_hrbl_reader`: the mapped bytes with their size, and the header in
front of them. -/
structure Reader where
  base : Buffer
  header : Header
deriving DecidableEq

/-- `reader->size`. -/
abbrev Reader.size (r : Reader) : UInt64 := r.base.size

/-- A byte range a call hands out: pointer and length. -/
structure Range where
  offset : UInt64
  length : UInt64
deriving Repr, DecidableEq

/-- `bc_hrbl_value_ref_t`, without its back pointer to the reader. -/
structure ValueRef where
  nodeOffset : UInt64
  kind : Kind
deriving Repr, DecidableEq

/-- `bc_hrbl_iter_t`, without its back pointer to the reader. -/
structure Iter where
  cursorOffset : UInt64
  endOffset : UInt64
  remaining : UInt32
  isBlock : Bool
deriving Repr, DecidableEq

/-! ## Opening -/

/-- `bc_hrbl_reader_header_layout_valid`. -/
def readerHeaderLayoutValid (header : Header) (size : UInt64) : Bool :=
  if header.magic ≠ magicNumber then false
  else if header.versionMajor ≠ versionMajorNumber then false
  else if header.versionMinor > versionMinorNumber then false
  else if header.flags &&& flagsV1Required ≠ flagsV1Required then false
  else if header.flags &&& flagsV1ReservedMask ≠ 0 then false
  else if header.fileSize ≠ size then false
  else if header.rootIndexOffset ≠ rootIndexStart then false
  else if header.rootCount > rootCountMax then false
  else if header.rootIndexSize ≠ header.rootCount * rootEntrySize then false
  else if header.nodesOffset ≠ header.rootIndexOffset + header.rootIndexSize then false
  else if header.stringsOffset ≠ header.nodesOffset + header.nodesSize then false
  else if header.footerOffset ≠ header.stringsOffset + header.stringsSize then false
  else if header.footerOffset + footerSize ≠ header.fileSize then false
  else decide (∀ i, header.reserved i = 0)

/-- `bc_hrbl_reader_footer_matches`. -/
def readerFooterMatches (base : Buffer) (header : Header) : Outcome Bool := do
  let footer ← loadFooter base header.footerOffset
  if footer.magicEnd ≠ magicNumber then return false
  else if footer.fileSize ≠ header.fileSize then return false
  else if footer.checksumXxh3 ≠ header.checksumXxh3 then return false
  else return true

/-- `bc_hrbl_reader_open_buffer`, through `bc_hrbl_reader_attach_buffer`;
`allocated` is whether the reader structure can be allocated. -/
def openBuffer (allocated : Bool) (data : Buffer) : Outcome Reader :=
  if data.size < headerSize + footerSize then .no
  else do
    let header ← loadHeader data 0
    if !readerHeaderLayoutValid header data.size then .no
    else do
      let matches_ ← readerFooterMatches data header
      if !matches_ then .no
      else if !allocated then .no
      else .ok { base := data, header }

/-! ## Entries -/

/-- `bc_hrbl_reader_read_entry`. -/
def readEntry (r : Reader) (entryOffset : UInt64) : Outcome Entry :=
  if entryOffset + rootEntrySize > r.size then .no
  else loadEntry r.base entryOffset

/-- `bc_hrbl_reader_key_equals`. -/
def keyEquals (r : Reader) (entry : Entry) (key : List UInt8) : Outcome Bool :=
  let keyLength := UInt64.ofNat key.length
  if entry.keyLength.toUInt64 ≠ keyLength then .ok false
  else if keyLength = 0 then .ok true
  else
    let poolOffset : UInt64 := entry.keyPoolOffset.toUInt64 + 4
    if poolOffset + keyLength > r.size then .ok false
    else do
      let stored ← load r.base poolOffset key.length
      return decide (stored = key)

/-- The leftward loop of `bc_hrbl_reader_linear_probe_range`; the argument is
`left + 1`. `none` is the end of the loop without a hit. -/
def probeLeft (r : Reader) (entriesStart targetHash : UInt64) (key : List UInt8) :
    Nat → Outcome (Option Entry)
  | 0 => .ok none
  | left + 1 => do
    let candidate ← readEntry r (entriesStart + UInt64.ofNat left * rootEntrySize)
    if candidate.keyHash64 ≠ targetHash then .ok none
    else do
      let equal ← keyEquals r candidate key
      if equal then .ok (some candidate) else probeLeft r entriesStart targetHash key left

/-- The rightward loop of `bc_hrbl_reader_linear_probe_range`. -/
def probeRight (r : Reader) (entriesStart entryCount targetHash : UInt64) (key : List UInt8)
    (right : UInt64) : Outcome Entry :=
  if right < entryCount then
    match readEntry r (entriesStart + right * rootEntrySize) with
    | .ok candidate =>
      if candidate.keyHash64 ≠ targetHash then .no
      else
        match keyEquals r candidate key with
        | .ok true => .ok candidate
        | .ok false => probeRight r entriesStart entryCount targetHash key (right + 1)
        | .no => .no
        | .fault => .fault
    | .no => .no
    | .fault => .fault
  else .no
termination_by (entryCount - right).toNat
decreasing_by
  rename_i hlt
  have hlt' := entryCount.toNat_lt
  have hone : (1 : UInt64).toNat = 1 := rfl
  rw [UInt64.lt_iff_toNat_lt] at hlt
  rw [UInt64.toNat_sub, UInt64.toNat_sub, UInt64.toNat_add, hone]
  omega

/-- `bc_hrbl_reader_linear_probe_range`. The cast of `index` to `int64_t` makes
the leftward loop empty from `2 ^ 63` on. -/
def linearProbeRange (r : Reader) (entriesStart entryCount index targetHash : UInt64)
    (key : List UInt8) : Outcome Entry := do
  let hit ← probeLeft r entriesStart targetHash key
    (if index.toNat < 2 ^ 63 then index.toNat + 1 else 0)
  match hit with
  | some entry => .ok entry
  | none => probeRight r entriesStart entryCount targetHash key (index + 1)

/-- The loop of `bc_hrbl_reader_binary_search_entries`. -/
def binarySearchLoop (r : Reader) (entriesStart entryCount targetHash : UInt64)
    (key : List UInt8) (low high : UInt64) : Outcome Entry :=
  if low < high then
    match readEntry r (entriesStart + (low + (high - low) / 2) * rootEntrySize) with
    | .ok candidate =>
      if candidate.keyHash64 < targetHash then
        binarySearchLoop r entriesStart entryCount targetHash key (low + (high - low) / 2 + 1) high
      else if candidate.keyHash64 > targetHash then
        binarySearchLoop r entriesStart entryCount targetHash key low (low + (high - low) / 2)
      else
        match keyEquals r candidate key with
        | .ok true => .ok candidate
        | .ok false =>
          linearProbeRange r entriesStart entryCount (low + (high - low) / 2) targetHash key
        | .no => .no
        | .fault => .fault
    | .no => .no
    | .fault => .fault
  else .no
termination_by (high - low).toNat
decreasing_by
  all_goals
    rename_i hlt
    have hhigh := high.toNat_lt
    have hone : (1 : UInt64).toNat = 1 := rfl
    have htwo : (2 : UInt64).toNat = 2 := rfl
    rw [UInt64.lt_iff_toNat_lt] at hlt
    simp only [UInt64.toNat_sub, UInt64.toNat_add, UInt64.toNat_div, hone, htwo]
    omega

/-- `bc_hrbl_reader_binary_search_entries`. -/
def binarySearchEntries (r : Reader) (entriesStart entryCount targetHash : UInt64)
    (key : List UInt8) : Outcome Entry :=
  if entryCount = 0 then .no
  else binarySearchLoop r entriesStart entryCount targetHash key 0 entryCount

/-! ## Root index -/

/-- The key range of an entry, refused when it ends outside the file. -/
def entryKeyRange (r : Reader) (entry : Entry) : Outcome Range :=
  let keyStart : UInt64 := entry.keyPoolOffset.toUInt64 + 4
  if keyStart + entry.keyLength.toUInt64 > r.size then .no
  else .ok { offset := keyStart, length := entry.keyLength.toUInt64 }

/-- `bc_hrbl_reader_root_at_offset` with all out-parameters requested. -/
def rootAtOffset (r : Reader) (index : UInt64) : Outcome (Range × UInt64) :=
  if index ≥ r.header.rootCount then .no
  else do
    let entry ← readEntry r (r.header.rootIndexOffset + index * rootEntrySize)
    let key ← entryKeyRange r entry
    return (key, entry.valueOffset)

/-- `bc_hrbl_reader_find_root_offset`. -/
def findRootOffset (hash64 : List UInt8 → UInt64) (r : Reader) (key : List UInt8) :
    Outcome UInt64 := do
  let entry ← binarySearchEntries r r.header.rootIndexOffset r.header.rootCount (hash64 key) key
  return entry.valueOffset

/-! ## Nodes -/

/-- `bc_hrbl_reader_kind_at`. -/
def kindAt (r : Reader) (valueOffset : UInt64) : Outcome Kind :=
  if valueOffset < r.header.nodesOffset ∨
      valueOffset ≥ r.header.nodesOffset + r.header.nodesSize then .no
  else do
    let byte ← loadByte r.base valueOffset
    match Kind.ofByte byte with
    | some kind => .ok kind
    | none => .no

/-- `bc_hrbl_reader_block_body_offsets`. -/
def blockBodyOffsets (r : Reader) (blockOffset : UInt64) : Outcome (BlockHeader × UInt64) :=
  if blockOffset ≥ r.size then .no
  else do
    let byte ← loadByte r.base blockOffset
    if byte ≠ Kind.block.byte then .no
    else
      let bodyOffset := alignUp (blockOffset + 1) 8
      if bodyOffset + 8 > r.size then .no
      else do
        let header ← loadBlockHeader r.base bodyOffset
        if bodyOffset + 8 + header.childCount.toUInt64 * blockEntrySize > r.size then .no
        else .ok (header, bodyOffset + 8)

/-- `bc_hrbl_reader_block_child_count_at`. -/
def blockChildCountAt (r : Reader) (blockOffset : UInt64) : Outcome UInt32 := do
  let (header, _) ← blockBodyOffsets r blockOffset
  return header.childCount

/-- `bc_hrbl_reader_block_entry_at_offset` with all out-parameters requested. -/
def blockEntryAtOffset (r : Reader) (blockOffset : UInt64) (index : UInt32) :
    Outcome (Range × UInt64) := do
  let (header, entriesOffset) ← blockBodyOffsets r blockOffset
  if index ≥ header.childCount then .no
  else do
    let entry ← readEntry r (entriesOffset + index.toUInt64 * blockEntrySize)
    let key ← entryKeyRange r entry
    return (key, entry.valueOffset)

/-- `bc_hrbl_reader_block_find_offset`. -/
def blockFindOffset (hash64 : List UInt8 → UInt64) (r : Reader) (blockOffset : UInt64)
    (key : List UInt8) : Outcome UInt64 := do
  let (header, entriesOffset) ← blockBodyOffsets r blockOffset
  let entry ← binarySearchEntries r entriesOffset header.childCount.toUInt64 (hash64 key) key
  return entry.valueOffset

/-- `bc_hrbl_reader_array_body_offsets`. -/
def arrayBodyOffsets (r : Reader) (arrayOffset : UInt64) : Outcome (ArrayHeader × UInt64) :=
  if arrayOffset ≥ r.size then .no
  else do
    let byte ← loadByte r.base arrayOffset
    if byte ≠ Kind.array.byte then .no
    else
      let bodyOffset := alignUp (arrayOffset + 1) 8
      if bodyOffset + 8 > r.size then .no
      else do
        let header ← loadArrayHeader r.base bodyOffset
        if bodyOffset + 8 + header.elementCount.toUInt64 * arrayElementSize > r.size then .no
        else .ok (header, bodyOffset + 8)

/-- `bc_hrbl_reader_array_length_at`. -/
def arrayLengthAt (r : Reader) (arrayOffset : UInt64) : Outcome UInt32 := do
  let (header, _) ← arrayBodyOffsets r arrayOffset
  return header.elementCount

/-- `bc_hrbl_reader_array_at_offset`. -/
def arrayAtOffset (r : Reader) (arrayOffset : UInt64) (index : UInt32) : Outcome UInt64 := do
  let (header, elementsOffset) ← arrayBodyOffsets r arrayOffset
  if index ≥ header.elementCount then .no
  else loadU64 r.base (elementsOffset + index.toUInt64 * arrayElementSize)

/-! ## Scalars -/

/-- `bc_hrbl_reader_scalar_body`. -/
def scalarBody (r : Reader) (valueOffset : UInt64) (expectedKind : Kind) : Outcome UInt64 := do
  let kind ← kindAt r valueOffset
  if kind ≠ expectedKind then .no
  else
    let bodyOffset := alignUp (valueOffset + 1) (UInt64.ofNat expectedKind.bodyAlign)
    if bodyOffset + UInt64.ofNat expectedKind.bodySize > r.size then .no
    else .ok bodyOffset

/-- `bc_hrbl_reader_scalar_int64_at`. -/
def scalarInt64At (r : Reader) (valueOffset : UInt64) : Outcome Int64 := do
  let bodyOffset ← scalarBody r valueOffset .int64
  let word ← loadU64 r.base bodyOffset
  return word.toInt64

/-- `bc_hrbl_reader_scalar_uint64_at`. -/
def scalarUint64At (r : Reader) (valueOffset : UInt64) : Outcome UInt64 := do
  let bodyOffset ← scalarBody r valueOffset .uint64
  loadU64 r.base bodyOffset

/-- `bc_hrbl_reader_scalar_float64_at`: the bits of the `double`. -/
def scalarFloat64At (r : Reader) (valueOffset : UInt64) : Outcome UInt64 := do
  let bodyOffset ← scalarBody r valueOffset .float64
  loadU64 r.base bodyOffset

/-- `bc_hrbl_reader_scalar_bool_at`. -/
def scalarBoolAt (r : Reader) (valueOffset : UInt64) : Outcome Bool := do
  let kind ← kindAt r valueOffset
  match kind with
  | .true => .ok true
  | .false => .ok false
  | _ => .no

/-- `bc_hrbl_reader_scalar_string_at`. -/
def scalarStringAt (r : Reader) (valueOffset : UInt64) : Outcome Range := do
  let bodyOffset ← scalarBody r valueOffset .string
  let ref ← loadStringRef r.base bodyOffset
  let absolute : UInt64 := ref.poolOffset.toUInt64 + 4
  if absolute + ref.length.toUInt64 > r.size then .no
  else .ok { offset := absolute, length := ref.length.toUInt64 }

/-! ## Paths -/

/-- The decimal index between brackets: one to ten digits, at most `UINT32_MAX`. -/
def parseIndex (digits : List UInt8) : Option UInt32 :=
  if digits.length = 0 ∨ digits.length > 10 then none
  else if ∃ digit ∈ digits, digit < 0x30 ∨ digit > 0x39 then none
  else
    let index := digits.foldl (fun index digit => index * 10 + (digit - 0x30).toUInt64) (0 : UInt64)
    if index > 0xFFFFFFFF then none else some index.toUInt32

/-- What the path loop reads at its cursor, and what is left after it. -/
inductive Segment where
  | key (segment : List UInt8)
  | index (index : UInt32)
deriving Repr, DecidableEq

/-- Cuts the segment off that starts at the cursor (which is on no `.`). `none`
where the path loop returns `false`: no closing bracket or quote, no index. -/
def cutSegment : List UInt8 → Option (Segment × List UInt8)
  | [] => none
  | c :: rest =>
    if c = 0x5B then
      match rest.dropWhile (· ≠ 0x5D) with
      | [] => none
      | _ :: after =>
        match parseIndex (rest.takeWhile (· ≠ 0x5D)) with
        | none => none
        | some index => some (.index index, after)
    else if c = 0x27 ∨ c = 0x22 then
      match rest.dropWhile (· ≠ c) with
      | [] => none
      | _ :: after => some (.key (rest.takeWhile (· ≠ c)), after)
    else
      some (.key ((c :: rest).takeWhile fun x => x ≠ 0x2E ∧ x ≠ 0x5B),
        (c :: rest).dropWhile fun x => x ≠ 0x2E ∧ x ≠ 0x5B)

/-- A segment takes at least one byte. -/
theorem length_cutSegment_lt {c : UInt8} {tail after : List UInt8} {segment : Segment}
    (hdot : c ≠ 0x2E) (h : cutSegment (c :: tail) = some (segment, after)) :
    after.length < (c :: tail).length := by
  have hdrop : ∀ p : UInt8 → Bool, (tail.dropWhile p).length ≤ tail.length := fun p =>
    (List.dropWhile_sublist p).length_le
  simp only [cutSegment] at h
  split at h
  · split at h
    · cases h
    · rename_i heq
      split at h
      · cases h
      · cases h
        have hle := hdrop (· ≠ 0x5D)
        rw [heq, List.length_cons] at hle
        simp only [List.length_cons]
        omega
  · rename_i hbracket
    split at h
    · split at h
      · cases h
      · rename_i heq
        cases h
        have hle := hdrop (· ≠ c)
        rw [heq, List.length_cons] at hle
        simp only [List.length_cons]
        omega
    · cases h
      have hle := hdrop fun x => x ≠ 0x2E ∧ x ≠ 0x5B
      rw [List.dropWhile_cons_of_pos (by simp [hdot, hbracket])]
      simp only [List.length_cons]
      omega

/-- The loop of `bc_hrbl_reader_resolve_path`, on what is left of the path. -/
def resolveLoop (hash64 : List UInt8 → UInt64) (r : Reader) (currentOffset : UInt64)
    (resolvedRoot : Bool) (path : List UInt8) : Outcome UInt64 :=
  match path with
  | [] => if resolvedRoot then .ok currentOffset else .no
  | c :: tail =>
    if hdot : c = 0x2E then resolveLoop hash64 r currentOffset resolvedRoot tail
    else
      match hcut : cutSegment (c :: tail) with
      | none => .no
      | some (.index index, after) =>
        have _hshorter := length_cutSegment_lt hdot hcut
        if !resolvedRoot then .no
        else
          match arrayAtOffset r currentOffset index with
          | .ok nextOffset => resolveLoop hash64 r nextOffset true after
          | .no => .no
          | .fault => .fault
      | some (.key segment, after) =>
        have _hshorter := length_cutSegment_lt hdot hcut
        if segment.length = 0 then .no
        else
          match (if resolvedRoot then blockFindOffset hash64 r currentOffset segment
              else findRootOffset hash64 r segment) with
          | .ok nextOffset => resolveLoop hash64 r nextOffset true after
          | .no => .no
          | .fault => .fault
termination_by path.length
decreasing_by
  · exact Nat.lt_succ_self _
  · exact _hshorter
  · exact _hshorter

/-- `bc_hrbl_reader_resolve_path`. -/
def resolvePath (hash64 : List UInt8 → UInt64) (r : Reader) (path : List UInt8) :
    Outcome UInt64 :=
  if path.length = 0 then .no else resolveLoop hash64 r 0 false path

/-- `bc_hrbl_reader_find`. -/
def find (hash64 : List UInt8 → UInt64) (r : Reader) (path : List UInt8) :
    Outcome ValueRef := do
  let valueOffset ← resolvePath hash64 r path
  let kind ← kindAt r valueOffset
  return { nodeOffset := valueOffset, kind }

/-! ## Values -/

/-- `bc_hrbl_reader_get_bool` and its siblings on a reference the reader returned. -/
def getBool (r : Reader) (value : ValueRef) : Outcome Bool := scalarBoolAt r value.nodeOffset
def getInt64 (r : Reader) (value : ValueRef) : Outcome Int64 := scalarInt64At r value.nodeOffset
def getUint64 (r : Reader) (value : ValueRef) : Outcome UInt64 :=
  scalarUint64At r value.nodeOffset
def getFloat64 (r : Reader) (value : ValueRef) : Outcome UInt64 :=
  scalarFloat64At r value.nodeOffset
def getString (r : Reader) (value : ValueRef) : Outcome Range := scalarStringAt r value.nodeOffset

/-! ## Iteration -/

/-- `bc_hrbl_reader_iter_block`. -/
def iterBlock (r : Reader) (block : ValueRef) : Outcome Iter :=
  if block.kind ≠ .block then .no
  else do
    let (header, entriesOffset) ← blockBodyOffsets r block.nodeOffset
    return {
      cursorOffset := entriesOffset
      endOffset := entriesOffset + header.childCount.toUInt64 * blockEntrySize
      remaining := header.childCount
      isBlock := true }

/-- `bc_hrbl_reader_iter_array`. -/
def iterArray (r : Reader) (array : ValueRef) : Outcome Iter :=
  if array.kind ≠ .array then .no
  else do
    let (header, elementsOffset) ← arrayBodyOffsets r array.nodeOffset
    return {
      cursorOffset := elementsOffset
      endOffset := elementsOffset + header.elementCount.toUInt64 * arrayElementSize
      remaining := header.elementCount
      isBlock := false }

/-- `bc_hrbl_iter_next`: the iterator moved on, the value, and the key range of a
block entry. `no` leaves the iterator as it is. -/
def iterNext (r : Reader) (iter : Iter) : Outcome (Iter × ValueRef × Option Range) :=
  if iter.remaining = 0 then .no
  else if iter.isBlock then do
    let entry ← readEntry r iter.cursorOffset
    let key ← entryKeyRange r entry
    let kind ← kindAt r entry.valueOffset
    return ({ iter with
        cursorOffset := iter.cursorOffset + blockEntrySize
        remaining := iter.remaining - 1 },
      { nodeOffset := entry.valueOffset, kind }, some key)
  else if iter.cursorOffset + 8 > r.size then .no
  else do
    let valueOffset ← loadU64 r.base iter.cursorOffset
    let kind ← kindAt r valueOffset
    return ({ iter with
        cursorOffset := iter.cursorOffset + arrayElementSize
        remaining := iter.remaining - 1 },
      { nodeOffset := valueOffset, kind }, none)

end Hrbl
