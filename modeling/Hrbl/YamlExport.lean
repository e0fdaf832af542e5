import Hrbl.JsonExport
import Hrbl.PrintingYaml

/-!
# YAML exports

With libyaml as a recorder of events, the exporter emits a balanced stream that is composed to a
node for the document: a mapping for every block, a sequence for every array, a scalar in double
quotes for every key and string, and a plain scalar for everything else. The data of that node
are those of the document where the floats are printed with a dot or an exponent.
-/

namespace Hrbl

open Lib Lib.Outcome

/-! ## Nodes of documents -/

section

variable (spell : UInt64 → Bytes)

/-- What is printed for a float, finite ones being spelled so. -/
def floatText (bits : UInt64) : Bytes :=
  if isNan bits then ascii ['.', 'n', 'a', 'n']
  else if isNonFinite bits then
    if isNegative bits then ascii ['-', '.', 'i', 'n', 'f'] else ascii ['.', 'i', 'n', 'f']
  else spell bits

def scalarNode : Scalar → Yaml.Scalar
  | .null => plainScalar (ascii ['n', 'u', 'l', 'l'])
  | .bool false => plainScalar (ascii ['f', 'a', 'l', 's', 'e'])
  | .bool true => plainScalar (ascii ['t', 'r', 'u', 'e'])
  | .int64 value => plainScalar (Json.decimalInt value.toInt)
  | .uint64 value => plainScalar (Json.decimalNat value.toNat)
  | .float64 bits => plainScalar (floatText spell bits)
  | .string value => quotedScalar value

mutual

/-- The node that a value is emitted as. -/
def valueNode : Value → Yaml.Node
  | .scalar s => .scalar (scalarNode spell s)
  | .block members => .mapping (membersNode members)
  | .array elements => .sequence (elementsNode elements)

def membersNode : List (Bytes × Value) → List (Yaml.Node × Yaml.Node)
  | [] => []
  | (key, value) :: members => (.scalar (quotedScalar key), valueNode value) :: membersNode members

def elementsNode : List Value → List Yaml.Node
  | [] => []
  | value :: elements => valueNode value :: elementsNode elements

end

end

/-! ## Data of documents -/

def scalarData : Scalar → Yaml.Data UInt64
  | .null => .null
  | .bool value => .bool value
  | .int64 value => .int value.toInt
  | .uint64 value => .int value.toNat
  | .float64 bits =>
    if isNan bits then .nan
    else if isNonFinite bits then .infinity (isNegative bits)
    else .float bits
  | .string value => .string value

mutual

/-- What a value is, with its kinds but for those of integers, and with one NaN. -/
def valueData : Value → Yaml.Data UInt64
  | .scalar s => scalarData s
  | .block members => .mapping (membersData members)
  | .array elements => .sequence (elementsData elements)

def membersData : List (Bytes × Value) → List (Yaml.Data UInt64 × Yaml.Data UInt64)
  | [] => []
  | (key, value) :: members => (.string key, valueData value) :: membersData members

def elementsData : List Value → List (Yaml.Data UInt64)
  | [] => []
  | value :: elements => valueData value :: elementsData elements

end

/-! ## What is called -/

variable {σ : Type}

/-- The emitter records every event, and nothing else touches what it has recorded. -/
structure LibYaml.Records (lib : LibYaml σ) (events : σ → List Yaml.Event) : Prop where
  start : ∀ world, ∃ world', lib.start world = (true, world') ∧ events world' = events world
  setWidth : ∀ width world, events (lib.setWidth width world) = events world
  setUnicode : ∀ unicode world, events (lib.setUnicode unicode world) = events world
  emit : ∀ handler event s, ∃ world', lib.emit handler event s = (true, { s with world := world' }) ∧
    events world' = events s.world ++ [event]
  flush : ∀ handler s, ∃ world', lib.flush handler s = { s with world := world' } ∧
    events world' = events s.world

/-- What is spelled are numbers, and they are read back. -/
structure ReadsBack (spell : UInt64 → Bytes) (read : Bytes → UInt64) : Prop where
  isNumber : ∀ bits, isNonFinite bits = false → Json.IsNumber (spell bits)
  read_spell : ∀ bits, isNonFinite bits = false → read (spell bits) = bits

/-- Nothing is refused, the formatters print decimals, and doubles as `spell` has them. -/
structure Core.Prints (core : Core σ) (events : σ → List Yaml.Event) (spell : UInt64 → Bytes)
    (read : Bytes → UInt64) : Prop where
  allocate : ∀ bytes world, ∃ world', core.allocate bytes world = (true, world') ∧
    events world' = events world
  formatSigned : ∀ value world, ∃ world', core.formatSigned 64 value world =
    (some (Json.decimalInt value.toInt), world') ∧ events world' = events world
  formatUnsigned : ∀ value world, ∃ world', core.formatUnsigned 64 value world =
    (some (Json.decimalNat value.toNat), world') ∧ events world' = events world
  formatDouble : ∀ bits world, isNonFinite bits = false → ∃ world',
    core.formatDouble 64 bits world = (some (spell bits), world') ∧ events world' = events world
  length_le : ∀ bits, isNonFinite bits = false → (spell bits).length ≤ 64
  readsBack : ReadsBack spell read
  sortWithCompare : Sorts core.sortWithCompare

/-- The export goes on, and such events are recorded behind those there are. -/
abbrev Records (events : σ → List Yaml.Event) {α : Type} (m : ExportM σ α)
    (Q : α → List Yaml.Event → Prop) : Prop :=
  Outputs (fun s => s.writeFailed = false) (fun s => events s.world) m Q

namespace Records

variable {core : Core σ} {lib : LibYaml σ} {events : σ → List Yaml.Event}
  {spell : UInt64 → Bytes} {read : Bytes → UInt64}

theorem callCore {α : Type} {call : σ → α × σ} {P : α → Prop}
    (hcall : ∀ world, ∃ a world', call world = (a, world') ∧ events world' = events world ∧ P a) :
    Records events (callCore call) fun a recorded => recorded = [] ∧ P a := by
  intro s hs
  obtain ⟨a, world', hrun, hevents, hP⟩ := hcall s.world
  refine ⟨a, [], { s with world := world' }, ?_, hs, ?_, rfl, hP⟩
  · change EStateM.Result.ok (call s.world).1 { s with world := (call s.world).2 } = _
    rw [hrun]
  · rw [List.append_nil]
    exact hevents

theorem scratchAlloc (h : core.Prints events spell read) (bytes : Nat) (failed : ExportM σ Unit) :
    Records events (scratchAlloc core bytes failed) fun _ recorded => recorded = [] := by
  have hcall : ∀ world, ∃ a world', core.allocate bytes world = (a, world') ∧
      events world' = events world ∧ a = true := by
    intro world
    obtain ⟨world', hrun, hevents⟩ := h.allocate bytes world
    exact ⟨true, world', hrun, hevents, rfl⟩
  refine (callCore hcall).bind ?_
  intro allocated recorded hallocated
  obtain ⟨rfl, rfl⟩ := hallocated
  exact Outputs.pure rfl

theorem formatted {call : σ → Option Bytes × σ} {text : Bytes}
    (hcall : ∀ world, ∃ world', call world = (some text, world') ∧
      events world' = events world) :
    Records events (formatted call) fun bytes recorded => recorded = [] ∧ bytes = text := by
  have hsome : ∀ world, ∃ result world', call world = (result, world') ∧
      events world' = events world ∧ result = some text := by
    intro world
    obtain ⟨world', hrun, hevents⟩ := hcall world
    exact ⟨some text, world', hrun, hevents, rfl⟩
  refine (callCore hsome).bind ?_
  intro result recorded hresult
  obtain ⟨rfl, rfl⟩ := hresult
  exact Outputs.pure ⟨rfl, rfl⟩

/-! ## Events -/

theorem yamlEmitterEmit (h : lib.Records events) (event : Yaml.Event) :
    Records events (yamlEmitterEmit core lib event) fun emitted recorded =>
      emitted = true ∧ recorded = [event] := by
  intro s hs
  obtain ⟨world', hemit, hevents⟩ := h.emit (yamlWriteHandler core) event s
  refine ⟨true, [event], { s with world := world' }, ?_, hs, hevents, rfl, rfl⟩
  rw [Hrbl.yamlEmitterEmit, hemit]

theorem yamlEmit (h : lib.Records events) (event : Yaml.Event) :
    Records events (yamlEmit core lib event) fun _ recorded => recorded = [event] := by
  refine (yamlEmitterEmit h event).bind ?_
  intro emitted recorded hemitted
  obtain ⟨rfl, rfl⟩ := hemitted
  exact Outputs.pure rfl

theorem yamlEmitRaw (h : lib.Records events) (event : Yaml.Event) :
    Records events (yamlEmitRaw core lib event) fun _ recorded => recorded = [event] := by
  refine (yamlEmitterEmit h event).bind ?_
  intro emitted recorded hemitted
  obtain ⟨rfl, rfl⟩ := hemitted
  exact Outputs.pure rfl

/-- A text of the exporter is a plain scalar. -/
theorem yamlEmitText (h : lib.Records events) {text : Bytes} (hshort : Short text) :
    Records events (yamlEmitText core lib text) fun _ recorded =>
      recorded = [.scalar (plainScalar text)] := by
  have hemit : Hrbl.yamlEmitText core lib text =
      Hrbl.yamlEmit core lib (.scalar (plainScalar text)) := by
    rw [Hrbl.yamlEmitText, yamlEmitScalarStr, scalarText_eq hshort (List.prefix_refl text)]
    rfl
  rw [hemit]
  exact yamlEmit h _

/-- What is attempted is done. -/
theorem attempt {m : ExportM σ Unit} {Q : List Yaml.Event → Prop}
    (hm : Records events m fun _ recorded => Q recorded) :
    Records events (attempt m) fun done recorded => done = true ∧ Q recorded := by
  intro s hs
  obtain ⟨_, recorded, s', hrun, hready, hevents, hQ⟩ := hm s hs
  refine ⟨true, recorded, s', ?_, hready, hevents, rfl, hQ⟩
  rw [Hrbl.attempt, hrun]

end Records

/-! ## Scalars -/

theorem length_decimalNat {n : Nat} (h : n < 10 ^ 20) : (Json.decimalNat n).length ≤ 20 := by
  rw [Json.decimalNat]
  split
  · exact Nat.succ_le_succ (Nat.zero_le _)
  · rw [List.length_map, List.length_reverse]
    exact (Nat.digits_length_le_iff (by omega) n).mpr h

theorem short_decimalNat {n : Nat} (h : n < 10 ^ 20) : Short (Json.decimalNat n) := by
  have hle := length_decimalNat h
  rw [Short]
  omega

theorem short_decimalInt {v : Int} (h : v.natAbs < 10 ^ 20) : Short (Json.decimalInt v) := by
  have hle := length_decimalNat h
  rw [Short, Json.decimalInt]
  split
  · omega
  · rw [List.length_cons]
    omega

namespace Records

variable {core : Core σ} {lib : LibYaml σ} {events : σ → List Yaml.Event}
  {spell : UInt64 → Bytes} {read : Bytes → UInt64}

theorem yamlEmitFloat (hcore : core.Prints events spell read) (hlib : lib.Records events)
    (bits : UInt64) :
    Records events (yamlEmitFloat core lib bits) fun _ recorded =>
      recorded = [.scalar (plainScalar (floatText spell bits))] := by
  rw [floatText]
  by_cases hnan : isNan bits = true
  · rw [if_pos hnan, Hrbl.yamlEmitFloat, if_pos hnan]
    exact yamlEmitText hlib (by decide)
  rw [if_neg hnan, Hrbl.yamlEmitFloat, if_neg hnan]
  by_cases hinf : isNonFinite bits = true
  · rw [if_pos hinf, if_pos hinf]
    by_cases hneg : isNegative bits = true
    · rw [if_pos hneg, if_pos hneg]
      exact yamlEmitText hlib (by decide)
    · rw [if_neg hneg, if_neg hneg]
      exact yamlEmitText hlib (by decide)
  · rw [if_neg hinf, if_neg hinf]
    have hfinite : isNonFinite bits = false := Bool.eq_false_iff.mpr hinf
    refine (formatted fun world => hcore.formatDouble bits world hfinite).bind ?_
    intro text recorded htext
    obtain ⟨rfl, rfl⟩ := htext
    refine yamlEmitText hlib ?_
    have hle := hcore.length_le bits hfinite
    rw [Short]
    omega

/-- A scalar is emitted as its node. -/
theorem printYamlScalar (hcore : core.Prints events spell read) (hlib : lib.Records events)
    (s : Scalar) :
    Records events (printYamlScalar core lib s) fun _ recorded =>
      recorded = [.scalar (scalarNode spell s)] := by
  cases s with
  | null => exact yamlEmitText hlib (by decide)
  | bool value =>
    cases value with
    | false => exact yamlEmitText hlib (by decide)
    | true => exact yamlEmitText hlib (by decide)
  | int64 value =>
    refine (formatted fun world => hcore.formatSigned value world).bind ?_
    intro text recorded htext
    obtain ⟨rfl, rfl⟩ := htext
    have hlt := value.toInt_lt
    have hge := value.le_toInt
    exact yamlEmitText hlib (short_decimalInt (by omega))
  | uint64 value =>
    refine (formatted fun world => hcore.formatUnsigned value world).bind ?_
    intro text recorded htext
    obtain ⟨rfl, rfl⟩ := htext
    have hlt := value.toNat_lt
    exact yamlEmitText hlib (short_decimalNat (by omega))
  | float64 bits => exact yamlEmitFloat hcore hlib bits
  | string value => exact yamlEmit hlib _

/-! ## Values -/

mutual

/-- A value is emitted as its node. -/
theorem printYamlValue (hcore : core.Prints events spell read) (hlib : lib.Records events) :
    ∀ value : Value, Records events (printYamlValue core lib value) fun _ recorded =>
      Yaml.Composes recorded (valueNode spell value)
  | .scalar s => by
    rw [Hrbl.printYamlValue]
    refine (printYamlScalar hcore hlib s).mono ?_
    rintro _ recorded rfl
    exact Yaml.composes_scalar _
  | .block members => by
    have hmembers := printYamlMembers hcore hlib members
    have hbody : Records events (do
        Hrbl.printYamlMembers core lib members
        yamlEmitMappingEnd core lib) fun _ recorded =>
          Yaml.Composes (.mappingStart true .block :: recorded) (valueNode spell (.block members)) := by
      refine hmembers.bind ?_
      intro _ recorded hrecorded
      refine (yamlEmit hlib _).mono ?_
      rintro _ closing rfl
      exact hrecorded.mapping true .block
    rw [Hrbl.printYamlValue]
    refine (yamlEmit hlib _).bind ?_
    rintro _ opening rfl
    refine Outputs.ite (fun _ => ?_) fun _ => hbody
    -- an array for the entries, when there are any
    refine (scratchAlloc hcore _ _).bind ?_
    rintro _ none rfl
    exact hbody
  | .array elements => by
    have helements := printYamlElements hcore hlib elements
    rw [Hrbl.printYamlValue]
    refine (yamlEmit hlib _).bind ?_
    rintro _ opening rfl
    refine helements.bind ?_
    intro _ recorded hrecorded
    refine (yamlEmit hlib _).mono ?_
    rintro _ closing rfl
    exact hrecorded.sequence true .block

theorem printYamlMembers (hcore : core.Prints events spell read) (hlib : lib.Records events) :
    ∀ members : List (Bytes × Value), Records events (printYamlMembers core lib members)
      fun _ recorded => Yaml.ComposesPairs recorded (membersNode spell members)
  | [] => by
    rw [Hrbl.printYamlMembers]
    exact Outputs.pure Yaml.composesPairs_nil
  | (key, value) :: members => by
    have hvalue := printYamlValue hcore hlib value
    have hrest := printYamlMembers hcore hlib members
    rw [Hrbl.printYamlMembers]
    refine (yamlEmit hlib _).bind ?_
    rintro _ name rfl
    refine hvalue.bind ?_
    intro _ inner hinner
    refine hrest.mono ?_
    intro _ rest hmore
    exact Yaml.ComposesPairs.cons (Yaml.composes_scalar (quotedScalar key)) hinner hmore

theorem printYamlElements (hcore : core.Prints events spell read) (hlib : lib.Records events) :
    ∀ elements : List Value, Records events (printYamlElements core lib elements)
      fun _ recorded => Yaml.ComposesElements recorded (elementsNode spell elements)
  | [] => by
    rw [Hrbl.printYamlElements]
    exact Outputs.pure Yaml.composesElements_nil
  | value :: elements => by
    have hvalue := printYamlValue hcore hlib value
    have hrest := printYamlElements hcore hlib elements
    rw [Hrbl.printYamlElements]
    refine hvalue.bind ?_
    intro _ inner hinner
    refine hrest.mono ?_
    intro _ rest hmore
    exact Yaml.ComposesElements.cons hinner hmore

end

/-! ## Documents -/

/-- A document is emitted as a mapping, all of it. -/
theorem printYamlRoots (hcore : core.Prints events spell read) (hlib : lib.Records events)
    (document : Document) :
    Records events (printYamlRoots core lib document) fun emitted recorded =>
      emitted = true ∧ Yaml.Composes recorded (.mapping (membersNode spell document)) := by
  refine Outputs.ite (fun hempty => ?_) fun _ => ?_
  · obtain rfl := List.length_eq_zero_iff.mp hempty
    refine (yamlEmitRaw hlib _).bind ?_
    rintro _ opening rfl
    refine (yamlEmitRaw hlib _).bind ?_
    rintro _ closing rfl
    exact Outputs.pure ⟨rfl, Yaml.composesPairs_nil.mapping true .block⟩
  · refine (scratchAlloc hcore _ _).bind ?_
    rintro _ none rfl
    refine (yamlEmit hlib _).bind ?_
    rintro _ opening rfl
    refine (attempt (printYamlMembers hcore hlib document)).bind ?_
    rintro _ recorded ⟨rfl, hrecorded⟩
    refine (attempt (yamlEmit hlib _)).bind ?_
    rintro _ closing ⟨rfl, rfl⟩
    exact Outputs.pure ⟨rfl, hrecorded.mapping true .block⟩

/-- The marks that are set on the emitter, and its buffer at the end, are not recorded. -/
theorem modifies {f : ExportState σ → ExportState σ}
    (hf : ∀ s, (f s).writeFailed = s.writeFailed ∧ events (f s).world = events s.world) :
    Records events (modify f) fun _ recorded => recorded = [] := by
  intro s hs
  obtain ⟨hfailed, hevents⟩ := hf s
  refine ⟨(), [], f s, rfl, hfailed.trans hs, ?_, rfl⟩
  rw [List.append_nil]
  exact hevents

/-- On a file that holds a document, a balanced stream is recorded. -/
theorem yamlExport (hcore : core.Prints events spell read) (hlib : lib.Records events)
    {options : Option ExportOptions} {r : Reader} {hash64 : Bytes → UInt64} {document : Document}
    (h : HoldsDocument hash64 r document) (hshort : ∀ u ∈ membersTexts document, Short u)
    {levels : Nat} (hlevels : membersDepth document ≤ levels) :
    ∃ document' : Document, RearrangedDocument (exportOrder options) document document' ∧
      Records events (yamlExport core lib options r levels) fun _ recorded =>
        Yaml.compose recorded = some (.mapping (membersNode spell document')) := by
  obtain ⟨document', horder, hroots⟩ :
      ∃ document', RearrangedDocument (exportOrder options) document document' ∧
        yamlRoots core lib options r levels = _ :=
    yamlRoots_holds hcore.sortWithCompare h hshort hlevels
  refine ⟨document', horder, ?_⟩
  have hstart : ∀ world, ∃ started world', lib.start world = (started, world') ∧
      events world' = events world ∧ started = true := by
    intro world
    obtain ⟨world', hrun, hevents⟩ := hlib.start world
    exact ⟨true, world', hrun, hevents, rfl⟩
  rw [Hrbl.yamlExport, hroots]
  refine (callCore hstart).bind ?_
  rintro _ _ ⟨rfl, rfl⟩
  refine Outputs.ite (fun _ => ?_) fun hfalse => absurd rfl hfalse
  refine Outputs.bind (modifies fun s => ⟨rfl, ?_⟩) ?_
  · exact (hlib.setUnicode _ _).trans (hlib.setWidth _ _)
  rintro _ _ rfl
  refine (yamlEmitRaw hlib _).bind ?_
  rintro _ _ rfl
  refine (yamlEmitRaw hlib _).bind ?_
  rintro _ _ rfl
  refine (printYamlRoots hcore hlib document').bind ?_
  rintro _ recorded ⟨rfl, hrecorded⟩
  refine (yamlEmitterEmit hlib _).bind ?_
  rintro _ _ ⟨rfl, rfl⟩
  refine (yamlEmitterEmit hlib _).bind ?_
  rintro _ _ ⟨rfl, rfl⟩
  refine Outputs.bind (modifies fun s => ?_) ?_
  · obtain ⟨world', hflush, hevents⟩ := hlib.flush (yamlWriteHandler core) s
    rw [hflush]
    exact ⟨rfl, hevents⟩
  rintro _ _ rfl
  refine Outputs.pure ?_
  simp only [List.nil_append, List.append_nil, List.cons_append]
  exact hrecorded.compose true true

/-- An export that goes on to its end returns `true`. -/
theorem exportEnd {m : ExportM σ Unit} {Q : List Yaml.Event → Prop}
    (h : Records events m fun _ recorded => Q recorded) (world : σ) :
    ∃ world' stream, exportEnd m world = (.ok true, world') ∧
      events world' = events world ++ stream ∧ Q stream := by
  obtain ⟨_, stream, s, hrun, hready, hevents, hQ⟩ := h { world, writeFailed := false } rfl
  refine ⟨s.world, stream, ?_, hevents, hQ⟩
  have hfailed : s.writeFailed = false := hready
  rw [exportEnd_ok hrun, hfailed]
  rfl

end Records

/-! ## Data of nodes -/

/-- Every finite float among the scalars is spelled with a dot or an exponent. -/
def Dotted (spell : UInt64 → Bytes) (scalars : List Scalar) : Prop :=
  ∀ bits, .float64 bits ∈ scalars → isNonFinite bits = false → (spell bits).any isDotOrExp = true

theorem dotted_append {spell : UInt64 → Bytes} {scalars more : List Scalar} :
    Dotted spell (scalars ++ more) ↔ Dotted spell scalars ∧ Dotted spell more := by
  constructor
  · intro h
    constructor
    · exact fun bits hmem => h bits (List.mem_append_left _ hmem)
    · exact fun bits hmem => h bits (List.mem_append_right _ hmem)
  · rintro ⟨hfirst, hsecond⟩ bits hmem
    rcases List.mem_append.mp hmem with hmem | hmem
    · exact hfirst bits hmem
    · exact hsecond bits hmem

theorem dotted_of_no_float {spell : UInt64 → Bytes} {s : Scalar} (h : ∀ bits, s ≠ .float64 bits) :
    Dotted spell [s] := by
  intro bits hmem
  exact absurd (List.mem_singleton.mp hmem).symm (h bits)

section

variable {spell : UInt64 → Bytes} {read : Bytes → UInt64}

theorem any_isDotOrExp {text : Bytes} :
    text.any isDotOrExp = true ↔ ∃ b ∈ text, Json.IsDotOrExp b := by
  simp only [List.any_eq_true, isDotOrExp, Json.IsDotOrExp, Bool.or_eq_true, decide_eq_true_eq,
    or_assoc]

/-- A float without a dot and an exponent is read as an integer. -/
theorem resolve_undotted (h : ReadsBack spell read) {bits : UInt64}
    (hfinite : isNonFinite bits = false) (hdot : ¬(spell bits).any isDotOrExp = true) :
    ∃ v, Yaml.resolve read (spell bits) = .int v := by
  have hplain : ∀ b ∈ spell bits, ¬Json.IsDotOrExp b :=
    fun b hb hb' => hdot (any_isDotOrExp.mpr ⟨b, hb, hb'⟩)
  obtain ⟨v, hv⟩ := Yaml.exists_isInteger (h.isNumber bits hfinite) hplain
  exact ⟨v, Yaml.resolve_integer read hv⟩

/-- A finite float is read back when it is spelled with a dot or an exponent, and otherwise an
integer is. -/
theorem resolve_spell (h : ReadsBack spell read) {bits : UInt64} (hfinite : isNonFinite bits = false) :
    Yaml.resolve read (spell bits) = .float bits ↔ (spell bits).any isDotOrExp = true := by
  by_cases hdot : (spell bits).any isDotOrExp = true
  · have hfloat := Yaml.resolve_float read (h.isNumber bits hfinite) (any_isDotOrExp.mp hdot)
    rw [h.read_spell bits hfinite] at hfloat
    exact ⟨fun _ => hdot, fun _ => hfloat⟩
  · obtain ⟨v, hv⟩ := resolve_undotted h hfinite hdot
    refine ⟨fun heq => ?_, fun hdot' => absurd hdot' hdot⟩
    rw [hv] at heq
    cases heq

theorem scalarData_iff (h : ReadsBack spell read) (s : Scalar) :
    (scalarNode spell s).data read = scalarData s ↔ Dotted spell [s] := by
  cases s with
  | null => exact iff_of_true rfl (dotted_of_no_float fun _ h => by cases h)
  | bool value =>
    cases value with
    | false => exact iff_of_true rfl (dotted_of_no_float fun _ h => by cases h)
    | true => exact iff_of_true rfl (dotted_of_no_float fun _ h => by cases h)
  | int64 value =>
    exact iff_of_true (Yaml.resolve_integer read (Json.isInteger_decimalInt _))
      (dotted_of_no_float fun _ h => by cases h)
  | uint64 value =>
    exact iff_of_true (Yaml.resolve_integer read (Json.isInteger_decimalNat _))
      (dotted_of_no_float fun _ h => by cases h)
  | string value => exact iff_of_true rfl (dotted_of_no_float fun _ h => by cases h)
  | float64 bits =>
    have hnode : (scalarNode spell (.float64 bits)).data read =
        Yaml.resolve read (floatText spell bits) := rfl
    rw [hnode, floatText, scalarData]
    have hnonFinite : isNonFinite bits = true → Dotted spell [.float64 bits] := by
      intro hinf bits' hmem hfinite
      obtain rfl : bits' = bits := Scalar.float64.inj (List.mem_singleton.mp hmem)
      rw [hinf] at hfinite
      cases hfinite
    by_cases hnan : isNan bits = true
    · have hinf : isNonFinite bits = true := by
        rw [isNan, Bool.and_eq_true] at hnan
        exact hnan.1
      rw [if_pos hnan, if_pos hnan]
      exact iff_of_true rfl (hnonFinite hinf)
    rw [if_neg hnan, if_neg hnan]
    by_cases hinf : isNonFinite bits = true
    · rw [if_pos hinf, if_pos hinf]
      refine iff_of_true ?_ (hnonFinite hinf)
      cases isNegative bits with
      | false => rfl
      | true => rfl
    · have hfinite : isNonFinite bits = false := Bool.eq_false_iff.mpr hinf
      rw [if_neg hinf, if_neg hinf, resolve_spell h hfinite]
      constructor
      · intro hdot bits' hmem _
        obtain rfl : bits' = bits := Scalar.float64.inj (List.mem_singleton.mp hmem)
        exact hdot
      · intro hdotted
        exact hdotted bits List.mem_cons_self hfinite

mutual

/-- The data of its node are those of a value when its floats are dotted, and only then. -/
theorem valueData_iff (h : ReadsBack spell read) : ∀ value : Value,
    (valueNode spell value).data read = valueData value ↔ Dotted spell (valueScalars value)
  | .scalar s => scalarData_iff h s
  | .block members => by
    rw [valueNode, Yaml.Node.data, valueData, valueScalars, Yaml.Data.mapping.injEq]
    exact membersData_iff h members
  | .array elements => by
    rw [valueNode, Yaml.Node.data, valueData, valueScalars, Yaml.Data.sequence.injEq]
    exact elementsData_iff h elements

theorem membersData_iff (h : ReadsBack spell read) : ∀ members : List (Bytes × Value),
    Yaml.pairsData read (membersNode spell members) = membersData members ↔
      Dotted spell (membersScalars members)
  | [] => iff_of_true rfl fun _ hmem => absurd hmem List.not_mem_nil
  | (key, value) :: members => by
    have hkey : (Yaml.Node.scalar (quotedScalar key)).data read = .string key := rfl
    rw [membersNode, Yaml.pairsData, membersData, membersScalars, List.cons.injEq, Prod.mk.injEq,
      hkey, valueData_iff h value, membersData_iff h members, dotted_append]
    simp only [true_and]

theorem elementsData_iff (h : ReadsBack spell read) : ∀ elements : List Value,
    Yaml.elementsData read (elementsNode spell elements) = elementsData elements ↔
      Dotted spell (elementsScalars elements)
  | [] => iff_of_true rfl fun _ hmem => absurd hmem List.not_mem_nil
  | value :: elements => by
    rw [elementsNode, Yaml.elementsData, elementsData, elementsScalars, List.cons.injEq,
      valueData_iff h value, elementsData_iff h elements, dotted_append]

end

end

/-! ## Files -/

/-- The export returns `true`, and the stream it has emitted is composed to the node of the
document, with the members of the root and of every block in some order; and the data of that
node are those of the document. -/
def YamlPreserves (core : Core σ) (lib : LibYaml σ) (events : σ → List Yaml.Event)
    (spell : UInt64 → Bytes) (read : Bytes → UInt64) (levels : Nat) (r : Reader)
    (how : Option ExportOptions) (world : σ) (document : Document) : Prop :=
  ∃ world' stream document', exportYamlEx core lib levels r how world = (.ok true, world') ∧
    events world' = events world ++ stream ∧ RearrangedDocument List.Perm document document' ∧
    Yaml.compose stream = some (valueNode spell (.block document')) ∧
    (valueNode spell (.block document')).data read = valueData (.block document')

section

variable {core : Core σ} {lib : LibYaml σ} {events : σ → List Yaml.Event}
  {spell : UInt64 → Bytes} {read : Bytes → UInt64} (hcore : core.Prints events spell read)
  (hlib : lib.Records events) {hash64 : Bytes → UInt64} {document : Document} {b : Buffer}
  (hbytes : b.bytes = documentFile hash64 document)
  (hsize : documentSize hash64 document < 2 ^ 32)
  (hshort : ∀ u ∈ membersTexts document, Short u) (how : Option ExportOptions) {levels : Nat}
  (hlevels : membersDepth document ≤ levels) (world : σ)

include hcore hlib hbytes hsize hshort hlevels

/-- On a file of a document, the export returns `true` behind a stream that is composed to the
node of the document, with the members of the root and of every block in some order. -/
theorem exportYamlEx_document :
    ∃ world' stream document', exportYamlEx core lib levels
        { base := b, header := documentHeader hash64 document } how world = (.ok true, world') ∧
      events world' = events world ++ stream ∧ RearrangedDocument List.Perm document document' ∧
      Yaml.compose stream = some (valueNode spell (.block document')) := by
  have hin := rearrangedDocument_inFileOrder hash64 document
  have hshort' : ∀ u ∈ membersTexts (document.inFileOrder hash64), Short u :=
    fun u hu => hshort u (hin.mem_texts.mp hu)
  have hdepth : membersDepth (document.inFileOrder hash64) ≤ levels := by
    rwa [membersDepth_document]
  obtain ⟨document', horder, hrecords⟩ :
      ∃ document', RearrangedDocument (exportOrder how) _ document' ∧ _ :=
    Records.yamlExport hcore hlib (holdsDocument_document hbytes hsize) hshort' hdepth
  obtain ⟨world', stream, hend, hevents, hcompose⟩ := hrecords.exportEnd world
  exact ⟨world', stream, document', hend, hevents,
    hin.trans (horder.mono fun _ _ => exportOrder.perm), hcompose⟩

/-- On a file of a document, the document is preserved when its floats are dotted, and only
then. -/
theorem yamlPreserves_iff :
    YamlPreserves core lib events spell read levels
        { base := b, header := documentHeader hash64 document } how world document ↔
      Dotted spell (membersScalars document) := by
  constructor
  · rintro ⟨-, -, out, -, -, hout, -, hdata⟩ bits hmem
    have hdotted := (valueData_iff hcore.readsBack (.block out)).mp hdata
    exact hdotted bits (hout.mem_scalars.mpr hmem)
  · intro hdotted
    obtain ⟨world', stream, document', hend, hevents, hperm, hcompose⟩ :=
      exportYamlEx_document hcore hlib hbytes hsize hshort how hlevels world
    have hdotted' : Dotted spell (membersScalars document') :=
      fun bits hmem => hdotted bits (hperm.mem_scalars.mp hmem)
    exact ⟨world', stream, document', hend, hevents, hperm, hcompose,
      (valueData_iff hcore.readsBack (.block document')).mpr hdotted'⟩

end

/-- The spelling of three kinds of floats. -/
def spellPlain (bits : UInt64) : Bytes :=
  if bits = 0x3FF8000000000000 then ascii ['1', '.', '5']
  else if bits = 0 then ascii ['0']
  else Json.decimalNat bits.toNat ++ ascii ['e', '0']

def readPlain (text : Bytes) : UInt64 :=
  if text = ascii ['1', '.', '5'] then 0x3FF8000000000000
  else if text = ascii ['0'] then 0
  else UInt64.ofNat (Json.digitsValue (text.takeWhile (· ≠ 0x65)))

/-- Calls that never fail, over a world of events. -/
def eventCore : Core (List Yaml.Event) where
  writeBytes _ recorded := (true, recorded)
  allocate _ recorded := (true, recorded)
  formatSigned _ value recorded := (some (Json.decimalInt value.toInt), recorded)
  formatUnsigned _ value recorded := (some (Json.decimalNat value.toNat), recorded)
  formatHexadecimal _ value width recorded := (some (Json.hexDigits width value.toNat), recorded)
  formatDouble _ bits recorded := (some (spellPlain bits), recorded)
  sortWithCompare := insertionSortWith

/-- An emitter that records. -/
def eventYaml : LibYaml (List Yaml.Event) where
  start recorded := (true, recorded)
  setWidth _ recorded := recorded
  setUnicode _ recorded := recorded
  emit _ event s := (true, { s with world := s.world ++ [event] })
  flush _ s := s

theorem spellPlain_cases (bits : UInt64) :
    bits = 0x3FF8000000000000 ∧ spellPlain bits = ascii ['1', '.', '5'] ∨
      bits = 0 ∧ spellPlain bits = ascii ['0'] ∨
      spellPlain bits = Json.decimalNat bits.toNat ++ ascii ['e', '0'] := by
  rw [spellPlain]
  by_cases hone : bits = 0x3FF8000000000000
  · rw [if_pos hone]
    exact .inl ⟨hone, rfl⟩
  rw [if_neg hone]
  by_cases hzero : bits = 0
  · rw [if_pos hzero]
    exact .inr (.inl ⟨hzero, rfl⟩)
  rw [if_neg hzero]
  exact .inr (.inr rfl)

theorem isNumber_spellPlain (bits : UInt64) : Json.IsNumber (spellPlain bits) := by
  rcases spellPlain_cases bits with ⟨-, htext⟩ | ⟨-, htext⟩ | htext
  · rw [htext]
    refine ⟨[], [0x31], [0x2E, 0x35], [], rfl, .inl rfl, .inr ⟨0x31, [], rfl, by decide, ?_⟩,
      .inr ⟨[0x35], rfl, List.cons_ne_nil _ _, ?_⟩, .inl rfl⟩
    · exact List.forall_mem_singleton.mpr ⟨by decide, by decide⟩
    · exact List.forall_mem_singleton.mpr ⟨by decide, by decide⟩
  · rw [htext]
    exact (Json.isInteger_decimalNat 0).isNumber
  · rw [htext]
    refine ⟨[], Json.decimalNat bits.toNat, [], [0x65, 0x30], ?_, .inl rfl,
      Json.isInt_decimalNat _, .inl rfl,
      .inr ⟨0x65, [], [0x30], rfl, .inl rfl, .inl rfl, List.cons_ne_nil _ _, ?_⟩⟩
    · rw [List.nil_append, List.append_nil]
      rfl
    · exact List.forall_mem_singleton.mpr ⟨by decide, by decide⟩

theorem readPlain_spellPlain (bits : UInt64) : readPlain (spellPlain bits) = bits := by
  rcases spellPlain_cases bits with ⟨rfl, htext⟩ | ⟨rfl, htext⟩ | htext
  · rw [htext]
    rfl
  · rw [htext]
    rfl
  · -- the letter of the exponent is in neither of the other texts
    have hletter : (0x65 : UInt8) ∈ spellPlain bits := by
      rw [htext]
      exact List.mem_append_right _ (by decide)
    have hone : spellPlain bits ≠ ascii ['1', '.', '5'] := by
      intro heq
      rw [heq] at hletter
      exact absurd hletter (by decide)
    have hzero : spellPlain bits ≠ ascii ['0'] := by
      intro heq
      rw [heq] at hletter
      exact absurd hletter (by decide)
    have hdigits : ∀ b ∈ Json.decimalNat bits.toNat, decide (b ≠ 0x65) = true := by
      intro b hb
      refine decide_eq_true ?_
      rintro rfl
      exact absurd ((Json.isInt_decimalNat bits.toNat).isDigit _ hb).2 (by decide)
    have htake : (spellPlain bits).takeWhile (· ≠ 0x65) = Json.decimalNat bits.toNat := by
      rw [htext, List.takeWhile_append_of_pos hdigits]
      exact List.append_nil _
    rw [readPlain, if_neg hone, if_neg hzero, htake, Json.digitsValue_decimalNat,
      UInt64.ofNat_toNat]

theorem eventCore_prints : eventCore.Prints id spellPlain readPlain where
  allocate _ world := ⟨world, rfl, rfl⟩
  formatSigned _ world := ⟨world, rfl, rfl⟩
  formatUnsigned _ world := ⟨world, rfl, rfl⟩
  formatDouble _ world _ := ⟨world, rfl, rfl⟩
  length_le bits _ := by
    rcases spellPlain_cases bits with ⟨-, htext⟩ | ⟨-, htext⟩ | htext
    · rw [htext]
      decide
    · rw [htext]
      decide
    · have hlt := bits.toNat_lt
      have hle := length_decimalNat (show bits.toNat < 10 ^ 20 by omega)
      have htwo : (ascii ['e', '0']).length = 2 := rfl
      rw [htext, List.length_append, htwo]
      omega
  readsBack := ⟨fun bits _ => isNumber_spellPlain bits, fun bits _ => readPlain_spellPlain bits⟩
  sortWithCompare := sorts_insertionSortWith

theorem eventYaml_records : eventYaml.Records id where
  start world := ⟨world, rfl, rfl⟩
  setWidth _ _ := rfl
  setUnicode _ _ := rfl
  emit _ event s := ⟨s.world ++ [event], rfl, rfl⟩
  flush _ s := ⟨s.world, rfl, rfl⟩

/-- A zero is printed without a dot, and read back as an integer. -/
theorem yaml_export_float_lost :
    ∃ w b v r enough, (Writer.create none).runs (.succeeding fun key => UInt64.ofNat key.length)
        [.setFloat64 (.data [0x66]) 0] = some w ∧
      finalizeToBuffer (.succeeding fun key => UInt64.ofNat key.length) w = .returned b.bytes v ∧
      openBuffer true b = .ok r ∧
      (valueNode spellPlain (.block [([0x66], .scalar (.float64 0))])).data readPlain =
        .mapping [(.string [0x66], .int 0)] ∧
      ∀ levels ≥ enough, ∀ world, ¬YamlPreserves eventCore eventYaml id spellPlain readPlain
        levels r none world [([0x66], .scalar (.float64 0))] := by
  obtain ⟨w, hrun, hclosed, hworkers⟩ : ∃ w, (Writer.create none).runs
      (.succeeding fun key => UInt64.ofNat key.length) [.setFloat64 (.data [0x66]) 0] = some w ∧
      w.currentScope = none ∧ WorkersFit w.options.workerCount := ⟨_, rfl, rfl, by decide⟩
  obtain ⟨document, hb, hwritten⟩ := runs_written hrun hclosed
  obtain rfl : document = [([0x66], .scalar (.float64 0))] := by cases hb; rfl
  have hsize : documentSize (Env.succeeding fun key => UInt64.ofNat key.length).hash64
      [([0x66], .scalar (.float64 0))] < 2 ^ 32 := by decide +kernel
  have hshort : ∀ u ∈ membersTexts [([0x66], .scalar (.float64 0))], Short u := by decide
  obtain ⟨b, v, hreturned, hbytes⟩ :=
    (hwritten hsize).returned (Env.succeeding_succeeds _) hworkers
  refine ⟨w, b, v, _, membersDepth [([0x66], .scalar (.float64 0))], hrun, hreturned,
    openBuffer_document hbytes, rfl, ?_⟩
  intro levels hlevels world hpreserves
  have hdotted := (yamlPreserves_iff eventCore_prints eventYaml_records hbytes hsize hshort none
    hlevels world).mp hpreserves
  exact absurd (hdotted 0 List.mem_cons_self (by decide)) (by decide)

end Hrbl
