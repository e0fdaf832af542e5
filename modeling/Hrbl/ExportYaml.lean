import Hrbl.ExportIni
import Hrbl.Lib.Yaml

/-!
# The YAML exporter

`bc_hrbl_export_yaml.c`, over the same world and the same kind of state as the other exporters.
The emitter is that of libyaml: `LibYaml` has its calls over the world, and it writes through
the handler that the exporter gives it. Making an event and emitting it is one call here.
-/

namespace Hrbl

open Lib Lib.Outcome

/-- `yaml_write_handler_t`, with `bc_hrbl_yaml_state_t` as its data. -/
abbrev WriteHandler (σ : Type) := Bytes → ExportState σ → Bool × ExportState σ

/-- The calls of libyaml on one emitter, which is in the world. -/
structure LibYaml (σ : Type) where
  /-- `yaml_emitter_initialize`. -/
  start : σ → Bool × σ
  /-- `yaml_emitter_set_width`. -/
  setWidth : Int → σ → σ
  /-- `yaml_emitter_set_unicode`. -/
  setUnicode : Bool → σ → σ
  /-- `yaml_emitter_emit`. -/
  emit : WriteHandler σ → Yaml.Event → ExportState σ → Bool × ExportState σ
  /-- `yaml_emitter_flush`. -/
  flush : WriteHandler σ → ExportState σ → ExportState σ

variable {σ : Type}

section

variable (core : Core σ)

/-- `bc_hrbl_yaml_write_handler`. -/
def yamlWriteHandler : WriteHandler σ := fun buffer s =>
  if buffer.length = 0 then (true, s)
  else
    let (written, world) := core.writeBytes buffer s.world
    if written then (true, { s with world })
    else (false, { world, writeFailed := true })

variable (lib : LibYaml σ)

/-- `yaml_emitter_emit` on an event. -/
def yamlEmitterEmit (event : Yaml.Event) : ExportM σ Bool := fun s =>
  let (emitted, s') := lib.emit (yamlWriteHandler core) event s
  .ok emitted s'

/-- An event of which a failure is marked: what the functions that emit have in common. -/
def yamlEmit (event : Yaml.Event) : ExportM σ Unit := do
  let emitted ← yamlEmitterEmit core lib event
  if emitted then pure () else fail

/-- An event of which a failure is not marked. -/
def yamlEmitRaw (event : Yaml.Event) : ExportM σ Unit := do
  let emitted ← yamlEmitterEmit core lib event
  if emitted then pure () else throw .failed

/-- `(int)length`. -/
def intOfLength (length : Nat) : Int := (BitVec.ofNat 32 length).toInt

/-- The text that `yaml_scalar_event_initialize` copies from a pointer, given as the bytes of
the object from it on, and a length: a negative length is that of a string with an end. -/
def scalarText (data : Bytes) (length : Nat) : Outcome Bytes :=
  if intOfLength length < 0 then
    if 0 ∈ data then .ok (data.takeWhile (· ≠ 0)) else .fault
  else if (intOfLength length).toNat ≤ data.length then
    .ok (data.take (intOfLength length).toNat)
  else .fault

/-- A word or a number, as a scalar. -/
def plainScalar (value : Bytes) : Yaml.Scalar where
  value := value
  plainImplicit := true
  quotedImplicit := true
  style := .plain

/-- A key or a string, as a scalar. -/
def quotedScalar (value : Bytes) : Yaml.Scalar where
  value := value
  plainImplicit := false
  quotedImplicit := true
  style := .doubleQuoted

/-- `bc_hrbl_yaml_emit_scalar_str`. The source ignores what `yaml_scalar_event_initialize` returns: it
is 0 for a text that is not UTF-8 or without memory, and then an event of no defined contents is
emitted. Of these cases only the reads of the text are modelled. -/
def yamlEmitScalarStr (data : Bytes) (length : Nat) : ExportM σ Unit := do
  let value ← fromReader (scalarText data length)
  yamlEmit core lib (.scalar (plainScalar value))

/-- `bc_hrbl_yaml_emit_scalar_double_quoted`, which ignores the result of the initialization as
well. -/
def yamlEmitScalarDoubleQuoted (data : Bytes) (length : Nat) : ExportM σ Unit := do
  let value ← fromReader (scalarText data length)
  yamlEmit core lib (.scalar (quotedScalar value))

/-- `bc_hrbl_yaml_emit_mapping_start`. -/
def yamlEmitMappingStart : ExportM σ Unit := yamlEmit core lib (.mappingStart true .block)

/-- `bc_hrbl_yaml_emit_mapping_end`. -/
def yamlEmitMappingEnd : ExportM σ Unit := yamlEmit core lib .mappingEnd

/-- `bc_hrbl_yaml_emit_sequence_start`. -/
def yamlEmitSequenceStart : ExportM σ Unit := yamlEmit core lib (.sequenceStart true .block)

/-- `bc_hrbl_yaml_emit_sequence_end`. -/
def yamlEmitSequenceEnd : ExportM σ Unit := yamlEmit core lib .sequenceEnd

/-! ## Entries -/

/-- `bc_hrbl_yaml_sort_entry_t`. -/
structure YamlSortEntry where
  keyPoolOffset : UInt64
  keyLength : UInt32
  valueOffset : UInt64
deriving Repr, DecidableEq

/-- What is kept of an entry. -/
def yamlSortEntryOf (_offset : UInt64) (raw : Entry) : YamlSortEntry where
  keyPoolOffset := raw.keyPoolOffset.toUInt64
  keyLength := raw.keyLength
  valueOffset := raw.valueOffset

/-- `bc_hrbl_yaml_sort_less_by_key`. -/
def yamlSortLessByKey (r : Reader) (a b : YamlSortEntry) : Outcome Bool :=
  keyLess r a.keyPoolOffset a.keyLength b.keyPoolOffset b.keyLength

/-! ## Values -/

variable (options : Option ExportOptions) (r : Reader)

/-- The entries in the order they are emitted in: without `sort_keys` as they are. -/
def yamlArrangeEntries (entries : List YamlSortEntry) : ExportM σ (List YamlSortEntry) :=
  if sortKeysOf options then sortEntries core (yamlSortLessByKey r) entries else pure entries

/-- The loop over the entries of a block, which is also the one over the root index. -/
def yamlEntriesLoop (child : UInt64 → ExportM σ Unit) : List YamlSortEntry → ExportM σ Unit
  | [] => pure ()
  | entry :: entries => do
    yamlEmitScalarDoubleQuoted core lib (r.base.from (entry.keyPoolOffset + 4))
      entry.keyLength.toNat
    child entry.valueOffset
    yamlEntriesLoop child entries

/-- `bc_hrbl_yaml_emit_block`. -/
def yamlEmitBlock (child : UInt64 → ExportM σ Unit) (blockOffset : UInt64) : ExportM σ Unit := do
  let (header, entriesOffset) ← fromReader (blockBodyOffsets r blockOffset)
  yamlEmitMappingStart core lib
  let count := header.childCount.toNat
  if count ≠ 0 then scratchAlloc core (count * 24) fail
  let entries ← fromReader (copyEntries r yamlSortEntryOf count entriesOffset)
  let entries ← if count ≠ 0 then yamlArrangeEntries core options r entries else pure entries
  yamlEntriesLoop core lib r child entries
  yamlEmitMappingEnd core lib

/-- The loop over the elements of an array, `count` of them from an offset on. -/
def yamlElementsLoop (child : UInt64 → ExportM σ Unit) : Nat → UInt64 → ExportM σ Unit
  | 0, _ => pure ()
  | count + 1, offset => do
    let valueOffset ← fromReader (loadU64 r.base offset)
    child valueOffset
    yamlElementsLoop child count (offset + arrayElementSize)

/-- `bc_hrbl_yaml_emit_array`. -/
def yamlEmitArray (child : UInt64 → ExportM σ Unit) (arrayOffset : UInt64) : ExportM σ Unit := do
  let (header, elementsOffset) ← fromReader (arrayBodyOffsets r arrayOffset)
  yamlEmitSequenceStart core lib
  yamlElementsLoop r child header.elementCount.toNat elementsOffset
  yamlEmitSequenceEnd core lib

/-- A text that the exporter itself has. -/
def yamlEmitText (text : Bytes) : ExportM σ Unit := yamlEmitScalarStr core lib text text.length

/-- `isnan(v)`, on the bits. -/
def isNan (bits : UInt64) : Bool := isNonFinite bits && bits &&& 0xFFFFFFFFFFFFF ≠ 0

/-- `v < 0.0`, on the bits of an infinity. -/
def isNegative (bits : UInt64) : Bool := bits >>> 63 = 1

/-- The `double` of `bc_hrbl_yaml_emit_value`. -/
def yamlEmitFloat (bits : UInt64) : ExportM σ Unit :=
  if isNan bits then yamlEmitText core lib (ascii ['.', 'n', 'a', 'n'])
  else if isNonFinite bits then
    if isNegative bits then yamlEmitText core lib (ascii ['-', '.', 'i', 'n', 'f'])
    else yamlEmitText core lib (ascii ['.', 'i', 'n', 'f'])
  else do
    let text ← formatted (core.formatDouble 64 bits)
    yamlEmitText core lib text

/-- `bc_hrbl_yaml_emit_value`, with so many levels of calls left. -/
def yamlEmitValue : Nat → UInt64 → ExportM σ Unit
  | 0, _ => throw .overflow
  | levels + 1, valueOffset => do
    let kind ← fromReader (kindAt r valueOffset)
    match kind with
    | .null => yamlEmitText core lib (ascii ['n', 'u', 'l', 'l'])
    | .false => yamlEmitText core lib (ascii ['f', 'a', 'l', 's', 'e'])
    | .true => yamlEmitText core lib (ascii ['t', 'r', 'u', 'e'])
    | .int64 => do
      let value ← fromReader (scalarInt64At r valueOffset)
      let text ← formatted (core.formatSigned 64 value)
      yamlEmitText core lib text
    | .uint64 => do
      let value ← fromReader (scalarUint64At r valueOffset)
      let text ← formatted (core.formatUnsigned 64 value)
      yamlEmitText core lib text
    | .float64 => do
      let bits ← fromReader (scalarFloat64At r valueOffset)
      yamlEmitFloat core lib bits
    | .string => do
      let range ← fromReader (scalarStringAt r valueOffset)
      yamlEmitScalarDoubleQuoted core lib (r.base.from range.offset) range.length.toNat
    | .block => yamlEmitBlock core lib options r (yamlEmitValue levels) valueOffset
    | .array => yamlEmitArray core lib r (yamlEmitValue levels) valueOffset

/-! ## The root index -/

/-- The document of `bc_hrbl_export_yaml_ex`: whether every event of it has been emitted. The
mapping is ended also behind an entry that was not. -/
def yamlRoots (levels : Nat) : ExportM σ Bool :=
  if r.header.rootCount = 0 then do
    yamlEmitRaw core lib (.mappingStart true .block)
    yamlEmitRaw core lib .mappingEnd
    return true
  else do
    scratchAlloc core (r.header.rootCount * 24).toNat (throw .failed)
    let entries ← fromReader
      (copyEntries r yamlSortEntryOf r.header.rootCount.toNat r.header.rootIndexOffset)
    let entries ← yamlArrangeEntries core options r entries
    yamlEmitMappingStart core lib
    let emitted ← attempt
      (yamlEntriesLoop core lib r (yamlEmitValue core lib options r levels) entries)
    let ended ← attempt (yamlEmitMappingEnd core lib)
    return emitted && ended

/-- The body of `bc_hrbl_export_yaml_ex`. -/
def yamlExport (levels : Nat) : ExportM σ Unit := do
  let initialized ← callCore lib.start
  if initialized then
    let unicode := !asciiOnlyOf options
    modify fun s => { s with world := lib.setUnicode unicode (lib.setWidth (-1) s.world) }
    yamlEmitRaw core lib .streamStart
    yamlEmitRaw core lib (.documentStart true)
    let emitted ← yamlRoots core lib options r levels
    let ended ← yamlEmitterEmit core lib (.documentEnd true)
    let closed ← yamlEmitterEmit core lib .streamEnd
    modify fun s => lib.flush (yamlWriteHandler core) s
    if emitted && ended && closed then pure () else throw .failed
  else throw .failed

end

/-- `bc_hrbl_export_yaml_ex`. -/
def exportYamlEx (core : Core σ) (lib : LibYaml σ) (levels : Nat) (r : Reader)
    (options : Option ExportOptions) (world : σ) : Except ExportStop Bool × σ :=
  exportEnd (yamlExport core lib options r levels) world

/-- `bc_hrbl_export_yaml`. -/
def exportYaml (core : Core σ) (lib : LibYaml σ) (levels : Nat) (r : Reader) (world : σ) :
    Except ExportStop Bool × σ :=
  exportYamlEx core lib levels r none world

end Hrbl
