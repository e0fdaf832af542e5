import Hrbl.Export

/-!
# The INI exporter

`bc_hrbl_export_ini.c`, over the same world and the same kind of state as the JSON exporter.
Blocks become sections, named by the keys that lead to them; the blocks of a block come
after everything else in it.
-/

namespace Hrbl

open Lib Lib.Outcome

variable {σ : Type}

/-! ## Writing -/

/-- `bc_hrbl_ini_write`: the code of `bc_hrbl_export_write_all` on the state of this
exporter. -/
def iniWrite (core : Core σ) (data : Bytes) : ExportM σ Unit := exportWriteAll core data

/-- `bc_hrbl_ini_write_literal`. -/
def iniWriteLiteral (core : Core σ) (literal : Bytes) : ExportM σ Unit := iniWrite core literal

/-- The `switch` of `bc_hrbl_ini_write_escaped`. -/
def iniEscape (c : UInt8) : Option Bytes :=
  if c = 0x5C then some [0x5C, 0x5C]
  else if c = 0x22 then some [0x5C, 0x22]
  else if c = 0x0A then some [0x5C, 0x6E]
  else if c = 0x0D then some [0x5C, 0x72]
  else if c = 0x09 then some [0x5C, 0x74]
  else none

/-- One turn of the loop of `bc_hrbl_ini_write_escaped`. -/
def iniWriteByte (core : Core σ) (c : UInt8) : ExportM σ Unit :=
  match iniEscape c with
  | some chunk => iniWrite core chunk
  | none =>
    if c < 0x20 then do
      let digits ← formatted (core.formatHexadecimal 2 c.toUInt64 2)
      -- a backslash and `x`
      iniWriteLiteral core [0x5C, 0x78]
      iniWrite core (upperHex digits)
    else iniWrite core [c]

/-- The loop of `bc_hrbl_ini_write_escaped`. -/
def iniEscapedLoop (core : Core σ) (data : Bytes) (length i : Nat) : ExportM σ Unit :=
  if i < length then
    match data[i]? with
    | none => throw .fault
    | some c => do
      iniWriteByte core c
      iniEscapedLoop core data length (i + 1)
  else pure ()
termination_by length - i

/-- `bc_hrbl_ini_write_escaped` on a pointer, given as the bytes of the object from it on,
and a length. -/
def iniWriteEscaped (core : Core σ) (data : Bytes) (length : Nat) : ExportM σ Unit := do
  iniWriteLiteral core [0x22]
  iniEscapedLoop core data length 0
  iniWriteLiteral core [0x22]

/-- The `double` of `bc_hrbl_ini_write_scalar_value`: a formatter that fails is not marked. -/
def iniWriteFloat (core : Core σ) (bits : UInt64) : ExportM σ Unit :=
  if isNonFinite bits then iniWriteLiteral core []
  else do
    let result ← callCore (core.formatDouble 64 bits)
    match result with
    | some text => iniWrite core text
    | none => throw .failed

/-- `bc_hrbl_ini_write_scalar_value`. -/
def iniWriteScalarValue (core : Core σ) (r : Reader) (valueOffset : UInt64) :
    ExportM σ Unit := do
  let kind ← fromReader (kindAt r valueOffset)
  match kind with
  | .null => iniWriteLiteral core []
  | .false => iniWriteLiteral core (ascii ['f', 'a', 'l', 's', 'e'])
  | .true => iniWriteLiteral core (ascii ['t', 'r', 'u', 'e'])
  | .int64 => do
    let value ← fromReader (scalarInt64At r valueOffset)
    let text ← formatted (core.formatSigned 64 value)
    iniWrite core text
  | .uint64 => do
    let value ← fromReader (scalarUint64At r valueOffset)
    let text ← formatted (core.formatUnsigned 64 value)
    iniWrite core text
  | .float64 => do
    let bits ← fromReader (scalarFloat64At r valueOffset)
    iniWriteFloat core bits
  | .string => do
    let range ← fromReader (scalarStringAt r valueOffset)
    iniWriteEscaped core (r.base.from range.offset) range.length.toNat
  | .block | .array => throw .failed

/-! ## Entries -/

/-- `bc_hrbl_ini_sort_entry_t`. -/
structure IniSortEntry where
  keyPoolOffset : UInt64
  keyLength : UInt32
  valueOffset : UInt64
deriving Repr, DecidableEq

/-- What is kept of an entry. -/
def iniSortEntryOf (_offset : UInt64) (raw : Entry) : IniSortEntry where
  keyPoolOffset := raw.keyPoolOffset.toUInt64
  keyLength := raw.keyLength
  valueOffset := raw.valueOffset

/-- `bc_hrbl_ini_sort_less_by_key`. -/
def iniSortLessByKey (r : Reader) (a b : IniSortEntry) : Outcome Bool :=
  keyLess r a.keyPoolOffset a.keyLength b.keyPoolOffset b.keyLength

section

variable (core : Core σ) (options : Option ExportOptions) (r : Reader)

/-- The bytes of the key of an entry. -/
def iniKey (entry : IniSortEntry) : Outcome Bytes :=
  loadBytes r.base (entry.keyPoolOffset + 4) entry.keyLength.toNat

/-- The key of an entry is written. -/
def iniWriteKey (entry : IniSortEntry) : ExportM σ Unit := do
  let key ← fromReader (iniKey r entry)
  iniWrite core key

/-- The loop over the elements of an array in `bc_hrbl_ini_emit_entry`. -/
def iniElementsLoop (entry : IniSortEntry) : Nat → UInt64 → ExportM σ Unit
  | 0, _ => pure ()
  | count + 1, offset => do
    let elementOffset ← fromReader (loadU64 r.base offset)
    let elementKind ← fromReader (kindAt r elementOffset)
    if elementKind = .block ∨ elementKind = .array then fail
    else do
      iniWriteKey core r entry
      iniWriteLiteral core [0x5B, 0x5D, 0x3D]
      iniWriteScalarValue core r elementOffset
      iniWriteLiteral core [0x0A]
      iniElementsLoop entry count (offset + arrayElementSize)

/-- The length of the name of the section of a block. -/
def newSectionLength (sectionLength keyLength : Nat) : Nat :=
  if sectionLength ≠ 0 then sectionLength + keyLength + 1 else sectionLength + keyLength

/-- The name of the section of a block: the keys that lead to it, with dots between. -/
def newSection (section_ key : Bytes) : Bytes :=
  if section_.length ≠ 0 then section_ ++ [0x2E] ++ key else key

/-- `bc_hrbl_ini_emit_entry`; `block` emits a block under a section. -/
def iniEmitEntry (block : Bytes → UInt64 → ExportM σ Unit) (section_ : Bytes)
    (entry : IniSortEntry) : ExportM σ Unit := do
  let kind ← fromReader (kindAt r entry.valueOffset)
  match kind with
  | .block => do
    scratchAlloc core (newSectionLength section_.length entry.keyLength.toNat + 1) fail
    let key ← fromReader (iniKey r entry)
    block (newSection section_ key) entry.valueOffset
  | .array => do
    let (header, elementsOffset) ← fromReader (arrayBodyOffsets r entry.valueOffset)
    iniElementsLoop core r entry header.elementCount.toNat elementsOffset
  | _ => do
    iniWriteKey core r entry
    iniWriteLiteral core [0x20, 0x3D, 0x20]
    iniWriteScalarValue core r entry.valueOffset
    iniWriteLiteral core [0x0A]

/-- The entries in the order they are written in: without `sort_keys` as they are. -/
def iniArrangeEntries (entries : List IniSortEntry) : ExportM σ (List IniSortEntry) :=
  if sortKeysOf options then sortEntries core (iniSortLessByKey r) entries else pure entries

/-- The first loop of `bc_hrbl_ini_emit_block`: emits what is no block, and gathers the blocks
behind those it has, in an array of so many bytes. -/
def iniEntriesLoop (block : Bytes → UInt64 → ExportM σ Unit) (section_ : Bytes) (bytes : Nat) :
    List IniSortEntry → List IniSortEntry → ExportM σ (List IniSortEntry)
  | [], blocks => pure blocks
  | entry :: entries, blocks => do
    let kind ← fromReader (kindAt r entry.valueOffset)
    if kind = .block then do
      if blocks = [] then scratchAlloc core bytes fail
      iniEntriesLoop block section_ bytes entries (blocks ++ [entry])
    else do
      iniEmitEntry core r block section_ entry
      iniEntriesLoop block section_ bytes entries blocks

/-- The second loop of `bc_hrbl_ini_emit_block`. -/
def iniBlocksLoop (block : Bytes → UInt64 → ExportM σ Unit) (section_ : Bytes) :
    List IniSortEntry → ExportM σ Unit
  | [] => pure ()
  | entry :: blocks => do
    iniEmitEntry core r block section_ entry
    iniBlocksLoop block section_ blocks

/-- `bc_hrbl_ini_emit_block`, with so many levels of calls left. Every call in the exporter
has `is_root` at `false`. -/
def iniEmitBlock : Nat → Bytes → UInt64 → ExportM σ Unit
  | 0, _, _ => throw .overflow
  | levels + 1, section_, blockOffset => do
    let (header, entriesOffset) ← fromReader (blockBodyOffsets r blockOffset)
    let count := header.childCount.toNat
    if count ≠ 0 then scratchAlloc core (count * 24) fail
    let entries ← fromReader (copyEntries r iniSortEntryOf count entriesOffset)
    let entries ← if count ≠ 0 then iniArrangeEntries core options r entries else pure entries
    if section_.length ≠ 0 then do
      iniWriteLiteral core [0x5B]
      iniWrite core section_
      iniWriteLiteral core [0x5D, 0x0A]
    let blocks ← iniEntriesLoop core r (iniEmitBlock levels) section_ (count * 24) entries []
    if blocks ≠ [] then do
      iniWriteLiteral core [0x0A]
      iniBlocksLoop core r (iniEmitBlock levels) section_ blocks

/-! ## The root index -/

/-- A call whose `false` the caller looks at. -/
def attempt (m : ExportM σ Unit) : ExportM σ Bool := fun s =>
  match m s with
  | .ok _ s' => .ok true s'
  | .error .failed s' => .ok false s'
  | .error stop s' => .error stop s'

/-- `state.failed = true; break;` with the blocks that there are. -/
def breakFailed {α : Type} (blocks : List α) : ExportM σ (List α) := do
  modify fun s => { s with writeFailed := true }
  return blocks

/-- The first loop of `bc_hrbl_export_ini_ex`: it breaks where an entry is not emitted, with
the blocks it has gathered until there. -/
def iniRootLoop (block : Bytes → UInt64 → ExportM σ Unit) (bytes : Nat) :
    List IniSortEntry → List IniSortEntry → ExportM σ (List IniSortEntry)
  | [], blocks => pure blocks
  | entry :: entries, blocks => do
    let s ← get
    if s.writeFailed then pure blocks
    else
      match kindAt r entry.valueOffset with
      | .fault => throw .fault
      | .no => breakFailed blocks
      | .ok kind =>
        if kind = .block then do
          let allocated ← if blocks = [] then callCore (core.allocate bytes) else pure true
          if allocated then iniRootLoop block bytes entries (blocks ++ [entry])
          else breakFailed blocks
        else do
          let emitted ← attempt (iniEmitEntry core r block [] entry)
          if emitted then iniRootLoop block bytes entries blocks else pure blocks

/-- The second loop of `bc_hrbl_export_ini_ex`. -/
def iniRootBlocksLoop (block : Bytes → UInt64 → ExportM σ Unit) :
    List IniSortEntry → ExportM σ Unit
  | [] => pure ()
  | entry :: blocks => do
    let s ← get
    if s.writeFailed then pure ()
    else do
      let emitted ← attempt (iniEmitEntry core r block [] entry)
      if emitted then iniRootBlocksLoop block blocks else pure ()

/-- The body of `bc_hrbl_export_ini_ex`. -/
def iniRoots (levels : Nat) : ExportM σ Unit :=
  if r.header.rootCount = 0 then pure ()
  else do
    scratchAlloc core (r.header.rootCount * 24).toNat (throw .failed)
    let entries ← fromReader
      (copyEntries r iniSortEntryOf r.header.rootCount.toNat r.header.rootIndexOffset)
    let entries ← iniArrangeEntries core options r entries
    let blocks ← iniRootLoop core r (iniEmitBlock core options r levels)
      (r.header.rootCount * 24).toNat entries []
    iniRootBlocksLoop core r (iniEmitBlock core options r levels) blocks

end

/-- `bc_hrbl_export_ini_ex`. -/
def exportIniEx (core : Core σ) (levels : Nat) (r : Reader) (options : Option ExportOptions)
    (world : σ) : Except ExportStop Bool × σ :=
  exportEnd (iniRoots core options r levels) world

/-- `bc_hrbl_export_ini`. -/
def exportIni (core : Core σ) (levels : Nat) (r : Reader) (world : σ) :
    Except ExportStop Bool × σ :=
  exportIniEx core levels r none world

end Hrbl
