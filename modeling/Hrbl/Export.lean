import Hrbl.Document
import Hrbl.Lib.Comparator
import Hrbl.Lib.Json
import Hrbl.Reader
import Hrbl.Verify

/-!
# The JSON exporter

`bc_hrbl_export.c`. The sink, the formatters, the sort and the allocator are those of
`bc_core` and `bc_allocators`: `Core` has their calls over a world `σ`, which is all that
they share. A function that returns `false` stops, with what has been written so far left
in the world; its callers free their scratch memory and return `false` as well, and the
release of memory is not modelled.
-/

namespace Hrbl

open Lib Lib.Outcome

/-! ## What is called -/

/-- `bc_hrbl_export_options_t`. -/
structure ExportOptions where
  indentSpaces : UInt32
  sortKeys : Bool
  asciiOnly : Bool
deriving Repr, DecidableEq

/-- The calls of `bc_core` and of the pool allocator. A formatter is given the size of its
buffer and returns what it has written there, or `none` for `false`. -/
structure Core (σ : Type) where
  /-- `bc_core_writer_write_bytes`. -/
  writeBytes : Bytes → σ → Bool × σ
  /-- `bc_allocators_pool_allocate`. -/
  allocate : Nat → σ → Bool × σ
  /-- `bc_core_format_signed_integer_64`. -/
  formatSigned : Nat → Int64 → σ → Option Bytes × σ
  /-- `bc_core_format_unsigned_integer_64_decimal`. -/
  formatUnsigned : Nat → UInt64 → σ → Option Bytes × σ
  /-- `bc_core_format_unsigned_integer_64_hexadecimal_padded`. -/
  formatHexadecimal : Nat → UInt64 → Nat → σ → Option Bytes × σ
  /-- `bc_core_format_double_shortest_round_trip`, on the bits of the `double`. -/
  formatDouble : Nat → UInt64 → σ → Option Bytes × σ
  /-- `bc_core_sort_with_compare`. -/
  sortWithCompare : {α : Type} → (α → α → Bool) → List α → List α

/-- `bc_hrbl_export_state_t`: the world with the sink in it, and the mark of a failure. -/
structure ExportState (σ : Type) where
  world : σ
  writeFailed : Bool

/-- How an export ends early: a function returned `false`, a read left its object, or the
calls were nested deeper than there are levels. -/
inductive ExportStop where
  | failed
  | fault
  | overflow
deriving Repr, DecidableEq

abbrev ExportM (σ : Type) := EStateM ExportStop (ExportState σ)

variable {σ : Type}

/-- `state->write_failed = true; return false;` -/
def fail {α : Type} : ExportM σ α := do
  modify fun s => { s with writeFailed := true }
  throw .failed

/-- A call of the reader, whose `false` is a failure. -/
def fromReader {α : Type} : Outcome α → ExportM σ α
  | .ok a => pure a
  | .no => fail
  | .fault => throw .fault

/-- A call of `bc_core` or the allocator. -/
def callCore {α : Type} (call : σ → α × σ) : ExportM σ α := do
  let s ← get
  let (a, world) := call s.world
  set { s with world }
  return a

/-- `bc_hrbl_export_scratch_alloc`; whether a failure of it is marked depends on the
caller. -/
def scratchAlloc (core : Core σ) (bytes : Nat) (failed : ExportM σ Unit) : ExportM σ Unit := do
  let allocated ← callCore (core.allocate bytes)
  if allocated then pure () else failed

/-- ASCII characters. -/
def ascii (chars : List Char) : Bytes := chars.map Char.toUInt8

/-- A sink that appends, an allocator that never refuses, and formatters and a sort that do what
they are asked for; of the finite floats it prints two as they are. -/
def plainCore : Core Bytes where
  writeBytes data written := (true, written ++ data)
  allocate _ written := (true, written)
  formatSigned _ value written := (some (Json.decimalInt value.toInt), written)
  formatUnsigned _ value written := (some (Json.decimalNat value.toNat), written)
  formatHexadecimal _ value width written := (some (Json.hexDigits width value.toNat), written)
  formatDouble _ bits written :=
    (some (ascii (if bits = 0x3FF8000000000000 then ['1', '.', '5'] else ['0'])), written)
  sortWithCompare := insertionSortWith

section

variable (core : Core σ) (options : Option ExportOptions)

/-! ## Writing -/

/-- `bc_hrbl_export_write_all`. -/
def exportWriteAll (data : Bytes) : ExportM σ Unit := do
  let s ← get
  if s.writeFailed then throw .failed
  else if data.length = 0 then pure ()
  else do
    let written ← callCore (core.writeBytes data)
    if written then pure () else fail

/-- `bc_hrbl_export_write_literal`. -/
def writeLiteral (literal : Bytes) : ExportM σ Unit := exportWriteAll core literal

/-- `options != NULL ? options->indent_spaces : 2u`. -/
def indentSpacesOf : UInt32 :=
  match options with
  | some options => options.indentSpaces
  | none => 2

/-- `options != NULL ? options->sort_keys : true`. -/
def sortKeysOf : Bool :=
  match options with
  | some options => options.sortKeys
  | none => true

/-- `options != NULL ? options->ascii_only : false`. -/
def asciiOnlyOf : Bool :=
  match options with
  | some options => options.asciiOnly
  | none => false

/-- The loop of `bc_hrbl_export_write_indent`, through a buffer of 64 bytes. -/
def indentLoop (total : Nat) : ExportM σ Unit :=
  if total > 0 then do
    exportWriteAll core (List.replicate (min total 64) 0x20)
    indentLoop (total - min total 64)
  else pure ()
termination_by total

/-- `bc_hrbl_export_write_indent`. -/
def writeIndent (depth : UInt32) : ExportM σ Unit :=
  if indentSpacesOf options = 0 then pure ()
  else indentLoop core ((indentSpacesOf options).toUInt64 * depth.toUInt64).toNat

/-- `bc_hrbl_export_write_newline`. -/
def writeNewline : ExportM σ Unit :=
  if indentSpacesOf options = 0 then pure () else exportWriteAll core [0x0A]

/-! ## Strings -/

/-- The loop that turns the hexadecimal digits into upper case. -/
def upperHex (digits : Bytes) : Bytes :=
  digits.map fun c => if c ≥ 0x61 ∧ c ≤ 0x66 then c - 0x20 else c

/-- A formatter whose failure is marked. -/
def formatted (call : σ → Option Bytes × σ) : ExportM σ Bytes := do
  let result ← callCore call
  match result with
  | some bytes => pure bytes
  | none => fail

/-- `bc_hrbl_export_hex_escape`. -/
def hexEscape (codepoint : UInt32) : ExportM σ Unit := do
  let digits ← formatted (core.formatHexadecimal 6 codepoint.toUInt64 4)
  -- a backslash and `u`
  exportWriteAll core [0x5C, 0x75]
  exportWriteAll core (upperHex digits)

/-- `bc_hrbl_export_utf8_decode`, on the bytes from the index on and the length that is
left: the code point and how many bytes it takes. Lead and continuation bytes are taken
apart as in the verifier. -/
def exportUtf8Decode (data : Bytes) (remaining : Nat) : Outcome (UInt32 × Nat) :=
  match data with
  | [] => .fault
  | byte :: rest =>
    if byte < 0x80 then .ok (byte.toUInt32, 1)
    else
      match utf8Lead byte with
      | none => .no
      | some (continuations, lead) =>
        if continuations + 1 > remaining then .no
        else
          match utf8Continuation rest continuations lead with
          | .ok codepoint => .ok (codepoint, continuations + 1)
          | .no => .no
          | .fault => .fault

/-- The `switch` of `bc_hrbl_export_write_json_string`. -/
def jsonReplacement (byte : UInt8) : Option Bytes :=
  if byte = 0x22 then some [0x5C, 0x22]
  else if byte = 0x5C then some [0x5C, 0x5C]
  else if byte = 0x08 then some [0x5C, 0x62]
  else if byte = 0x0C then some [0x5C, 0x66]
  else if byte = 0x0A then some [0x5C, 0x6E]
  else if byte = 0x0D then some [0x5C, 0x72]
  else if byte = 0x09 then some [0x5C, 0x74]
  else none

/-- What one turn of the loop over a string writes. -/
inductive JsonPiece where
  | bytes (bytes : Bytes)
  | escape (codepoint : UInt32)
  | surrogates (high low : UInt32)
deriving Repr, DecidableEq

/-- One turn of the loop of `bc_hrbl_export_write_json_string`, on the bytes from the index
on and the length that is left: what it writes, and how many bytes it is done with. -/
def jsonPiece (asciiOnly : Bool) (data : Bytes) (remaining : Nat) : Outcome (JsonPiece × Nat) :=
  match data with
  | [] => .fault
  | byte :: rest =>
    match jsonReplacement byte with
    | some replacement => .ok (.bytes replacement, 1)
    | none =>
      if byte < 0x20 then .ok (.escape byte.toUInt32, 1)
      else if byte < 0x80 then .ok (.bytes [byte], 1)
      else
        match exportUtf8Decode (byte :: rest) remaining with
        | .no => .no
        | .fault => .fault
        | .ok (codepoint, consumed) =>
          if !asciiOnly then .ok (.bytes ((byte :: rest).take consumed), consumed)
          else if codepoint ≤ 0xFFFF then .ok (.escape codepoint, consumed)
          else
            let adjusted : UInt32 := codepoint - 0x10000
            let high := (0xD800 : UInt32) + (adjusted >>> 10)
            let low := (0xDC00 : UInt32) + (adjusted &&& 0x3FF)
            .ok (.surrogates high low, consumed)

theorem exportUtf8Decode_pos {data : Bytes} {remaining consumed : Nat} {codepoint : UInt32}
    (h : exportUtf8Decode data remaining = .ok (codepoint, consumed)) : 0 < consumed := by
  unfold exportUtf8Decode at h
  repeat' split at h
  all_goals cases h
  all_goals exact Nat.succ_pos _

/-- A turn is done with at least one byte. -/
theorem jsonPiece_pos {asciiOnly : Bool} {data : Bytes} {remaining consumed : Nat}
    {piece : JsonPiece} (h : jsonPiece asciiOnly data remaining = .ok (piece, consumed)) :
    0 < consumed := by
  unfold jsonPiece at h
  split at h
  · cases h
  · split at h
    · cases h
      exact Nat.one_pos
    · split at h
      · cases h
        exact Nat.one_pos
      · split at h
        · cases h
          exact Nat.one_pos
        · split at h
          · cases h
          · cases h
          · rename_i hdecode
            have hpos := exportUtf8Decode_pos hdecode
            split at h
            · cases h
              exact hpos
            · split at h <;>
              · cases h
                exact hpos

def writePiece : JsonPiece → ExportM σ Unit
  | .bytes bytes => exportWriteAll core bytes
  | .escape codepoint => hexEscape core codepoint
  | .surrogates high low => do
    hexEscape core high
    hexEscape core low

/-- The loop of `bc_hrbl_export_write_json_string`. -/
def jsonStringLoop (data : Bytes) (length index : Nat) : ExportM σ Unit :=
  if index < length then
    match _hpiece : jsonPiece (asciiOnlyOf options) (data.drop index) (length - index) with
    | .no => fail
    | .fault => throw .fault
    | .ok (piece, consumed) => do
      writePiece core piece
      jsonStringLoop data length (index + consumed)
  else pure ()
termination_by length - index
decreasing_by
  have hpos := jsonPiece_pos _hpiece
  omega

/-- `bc_hrbl_export_write_json_string` on a pointer, given as the bytes of the object from
it on, and a length. -/
def writeJsonString (data : Bytes) (length : Nat) : ExportM σ Unit := do
  exportWriteAll core [0x22]
  jsonStringLoop core options data length 0
  exportWriteAll core [0x22]

/-! ## Numbers -/

/-- `bc_hrbl_export_write_number_int64`. -/
def writeNumberInt64 (value : Int64) : ExportM σ Unit := do
  let text ← formatted (core.formatSigned 32 value)
  exportWriteAll core text

/-- `bc_hrbl_export_write_number_uint64`. -/
def writeNumberUint64 (value : UInt64) : ExportM σ Unit := do
  let text ← formatted (core.formatUnsigned 32 value)
  exportWriteAll core text

/-- `isnan(value) || isinf(value)`, on the bits: the exponent is all ones. -/
def isNonFinite (bits : UInt64) : Bool := (bits >>> 52) &&& 0x7FF = 0x7FF

/-- `c == '.' || c == 'e' || c == 'E'`. -/
def isDotOrExp (c : UInt8) : Bool := c = 0x2E || c = 0x65 || c = 0x45

/-- `bc_hrbl_export_write_number_float64`. -/
def writeNumberFloat64 (bits : UInt64) : ExportM σ Unit :=
  if isNonFinite bits then writeLiteral core (ascii ['n', 'u', 'l', 'l'])
  else do
    let text ← formatted (core.formatDouble 64 bits)
    exportWriteAll core text
    if text.any isDotOrExp then pure () else exportWriteAll core (ascii ['.', '0'])

/-! ## Entries -/

/-- `bc_hrbl_export_sort_entry_t`. -/
structure SortEntry where
  entryOffset : UInt64
  keyPoolOffset : UInt64
  keyLength : UInt32
  valueOffset : UInt64
deriving Repr, DecidableEq

end

/-- `bc_core_memcmp`: the sign of the first difference. -/
def memcmp : Bytes → Bytes → Int
  | a :: as, b :: bs => if a = b then memcmp as bs else if a < b then -1 else 1
  | _, _ => 0

/-- What a call reads that is given a pointer and a length: nothing when the length is
zero. -/
def loadBytes (b : Buffer) (offset : UInt64) (length : Nat) : Outcome Bytes :=
  if length = 0 then .ok [] else load b offset length

/-- The comparison of two keys in the pool, by their bytes and then by their lengths. -/
def keyLess (r : Reader) (aOffset : UInt64) (aLength : UInt32) (bOffset : UInt64)
    (bLength : UInt32) : Outcome Bool := do
  let minLength := if aLength < bLength then aLength else bLength
  let aData ← loadBytes r.base (aOffset + 4) minLength.toNat
  let bData ← loadBytes r.base (bOffset + 4) minLength.toNat
  let cmp := memcmp aData bData
  if cmp ≠ 0 then return decide (cmp < 0) else return decide (aLength < bLength)

/-- `bc_hrbl_export_sort_less_by_key`. -/
def sortLessByKey (r : Reader) (a b : SortEntry) : Outcome Bool :=
  keyLess r a.keyPoolOffset a.keyLength b.keyPoolOffset b.keyLength

/-- `bc_hrbl_export_sort_less_by_offset`. -/
def sortLessByOffset (a b : SortEntry) : Outcome Bool :=
  .ok (decide (a.entryOffset < b.entryOffset))

/-- A sort of entries. Which of them are compared is not known, so a comparison that would
read outside counts. -/
def sortEntries {α : Type} (core : Core σ) (less : α → α → Outcome Bool) (entries : List α) :
    ExportM σ (List α) :=
  if ∃ a ∈ entries, ∃ b ∈ entries, less a b = .fault then throw .fault
  else pure (core.sortWithCompare (fun a b => less a b = .ok true) entries)

/-- The loop that copies entries of the file, from one offset on. -/
def copyEntries {α : Type} (r : Reader) (copy : UInt64 → Entry → α) :
    Nat → UInt64 → Outcome (List α)
  | 0, _ => .ok []
  | count + 1, offset => do
    let raw ← loadEntry r.base offset
    let entries ← copyEntries r copy count (offset + rootEntrySize)
    return copy offset raw :: entries

/-- What is kept of an entry. -/
def sortEntryOf (offset : UInt64) (raw : Entry) : SortEntry where
  entryOffset := offset
  keyPoolOffset := raw.keyPoolOffset.toUInt64
  keyLength := raw.keyLength
  valueOffset := raw.valueOffset

/-! ## Values -/

section

variable (core : Core σ) (options : Option ExportOptions) (r : Reader)

/-- The entries in the order they are written in. -/
def arrangeEntries (entries : List SortEntry) : ExportM σ (List SortEntry) :=
  if sortKeysOf options then sortEntries core (sortLessByKey r) entries
  else sortEntries core sortLessByOffset entries

/-- The loop over the entries of a block, which is also the one over the root index: the
members inside of the braces, at `depth`. -/
def exportEntriesLoop (child : UInt64 → UInt32 → ExportM σ Unit) (depth : UInt32) :
    Bool → List SortEntry → ExportM σ Unit
  | _, [] => pure ()
  | first, entry :: entries => do
    if !first then
      exportWriteAll core [0x2C]
      writeNewline core options
    writeIndent core options depth
    writeJsonString core options (r.base.from (entry.keyPoolOffset + 4)) entry.keyLength.toNat
    if indentSpacesOf options = 0 then exportWriteAll core [0x3A] else exportWriteAll core [0x3A, 0x20]
    child entry.valueOffset depth
    exportEntriesLoop child depth false entries

/-- `bc_hrbl_export_block`. -/
def exportBlock (child : UInt64 → UInt32 → ExportM σ Unit) (blockOffset : UInt64)
    (depth : UInt32) : ExportM σ Unit := do
  let (header, entriesOffset) ← fromReader (blockBodyOffsets r blockOffset)
  if header.childCount = 0 then writeLiteral core [0x7B, 0x7D]
  else do
    writeLiteral core [0x7B]
    writeNewline core options
    scratchAlloc core (header.childCount.toNat * 32) fail
    let entries ← fromReader (copyEntries r sortEntryOf header.childCount.toNat entriesOffset)
    let entries ← arrangeEntries core options r entries
    exportEntriesLoop core options r child (depth + 1) true entries
    writeNewline core options
    writeIndent core options depth
    exportWriteAll core [0x7D]

/-- The loop over the elements of an array, `count` of them from an offset on. -/
def exportElementsLoop (child : UInt64 → UInt32 → ExportM σ Unit) (depth : UInt32) :
    Bool → Nat → UInt64 → ExportM σ Unit
  | _, 0, _ => pure ()
  | first, count + 1, offset => do
    if !first then
      exportWriteAll core [0x2C]
      writeNewline core options
    writeIndent core options depth
    let valueOffset ← fromReader (loadU64 r.base offset)
    child valueOffset depth
    exportElementsLoop child depth false count (offset + arrayElementSize)

/-- `bc_hrbl_export_array`. -/
def exportArray (child : UInt64 → UInt32 → ExportM σ Unit) (arrayOffset : UInt64)
    (depth : UInt32) : ExportM σ Unit := do
  let (header, elementsOffset) ← fromReader (arrayBodyOffsets r arrayOffset)
  if header.elementCount = 0 then writeLiteral core [0x5B, 0x5D]
  else do
    writeLiteral core [0x5B]
    writeNewline core options
    exportElementsLoop core options r child (depth + 1) true header.elementCount.toNat
      elementsOffset
    writeNewline core options
    writeIndent core options depth
    exportWriteAll core [0x5D]

/-- `bc_hrbl_export_value`, with so many levels of calls left. -/
def exportValue : Nat → UInt64 → UInt32 → ExportM σ Unit
  | 0, _, _ => throw .overflow
  | levels + 1, valueOffset, depth => do
    let kind ← fromReader (kindAt r valueOffset)
    match kind with
    | .null => writeLiteral core (ascii ['n', 'u', 'l', 'l'])
    | .false => writeLiteral core (ascii ['f', 'a', 'l', 's', 'e'])
    | .true => writeLiteral core (ascii ['t', 'r', 'u', 'e'])
    | .int64 => do
      let value ← fromReader (scalarInt64At r valueOffset)
      writeNumberInt64 core value
    | .uint64 => do
      let value ← fromReader (scalarUint64At r valueOffset)
      writeNumberUint64 core value
    | .float64 => do
      let bits ← fromReader (scalarFloat64At r valueOffset)
      writeNumberFloat64 core bits
    | .string => do
      let range ← fromReader (scalarStringAt r valueOffset)
      writeJsonString core options (r.base.from range.offset) range.length.toNat
    | .block => exportBlock core options r (exportValue levels) valueOffset depth
    | .array => exportArray core options r (exportValue levels) valueOffset depth

/-- The body of `bc_hrbl_export_json_ex`. -/
def exportRoots (levels : Nat) : ExportM σ Unit :=
  if r.header.rootCount = 0 then do
    writeLiteral core [0x7B, 0x7D]
    writeNewline core options
  else do
    writeLiteral core [0x7B]
    writeNewline core options
    scratchAlloc core (r.header.rootCount * 32).toNat (throw .failed)
    let entries ← fromReader
      (copyEntries r sortEntryOf r.header.rootCount.toNat r.header.rootIndexOffset)
    let entries ← arrangeEntries core options r entries
    exportEntriesLoop core options r (exportValue core options r levels) 1 true entries
    writeNewline core options
    exportWriteAll core [0x7D]
    writeNewline core options

end

/-- How an export ends: what it returns, and the world after it. -/
def exportEnd (m : ExportM σ Unit) (world : σ) : Except ExportStop Bool × σ :=
  match m.run { world, writeFailed := false } with
  | .ok _ s => (.ok (!s.writeFailed), s.world)
  | .error .failed s => (.ok false, s.world)
  | .error stop s => (.error stop, s.world)

theorem exportEnd_ok {m : ExportM σ Unit} {world : σ} {s : ExportState σ}
    (h : m { world, writeFailed := false } = .ok () s) :
    exportEnd m world = (.ok (!s.writeFailed), s.world) := by
  have hrun : m.run { world, writeFailed := false } = .ok () s := h
  rw [exportEnd, hrun]

theorem exportEnd_error {m : ExportM σ Unit} {world : σ} {stop : ExportStop} {s : ExportState σ}
    (h : m { world, writeFailed := false } = .error stop s) :
    exportEnd m world = (if stop = .failed then .ok false else .error stop, s.world) := by
  have hrun : m.run { world, writeFailed := false } = .error stop s := h
  rw [exportEnd, hrun]
  cases stop with
  | failed => rfl
  | fault => rfl
  | overflow => rfl

/-- An export that returns `true` has come to its end without a mark. -/
theorem exportEnd_eq_true {m : ExportM σ Unit} {world : σ}
    (h : (exportEnd m world).1 = .ok true) : ∃ s, m { world, writeFailed := false } = .ok () s ∧
      s.writeFailed = false ∧ exportEnd m world = (.ok true, s.world) := by
  cases hrun : m { world, writeFailed := false } with
  | ok _ s =>
    have hend := exportEnd_ok hrun
    rw [hend] at h
    have hready : s.writeFailed = false := by simpa using h
    rw [hready] at hend
    exact ⟨s, rfl, hready, hend⟩
  | error stop s =>
    rw [exportEnd_error hrun] at h
    dsimp only at h
    split at h
    · cases h
    · cases h

/-- `bc_hrbl_export_json_ex`. -/
def exportJsonEx (core : Core σ) (levels : Nat) (r : Reader) (options : Option ExportOptions)
    (world : σ) : Except ExportStop Bool × σ :=
  exportEnd (exportRoots core options r levels) world

/-- `bc_hrbl_export_json`. -/
def exportJson (core : Core σ) (levels : Nat) (r : Reader) (world : σ) :
    Except ExportStop Bool × σ :=
  exportJsonEx core levels r (some { indentSpaces := 2, sortKeys := true, asciiOnly := false })
    world

end Hrbl
