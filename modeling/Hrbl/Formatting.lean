import Hrbl.IniExport
import Hrbl.Keeping

/-!
# Doubles that are not formatted

The INI exporter with a core that does not format every `double`. On a document whose finite doubles
are all formatted, it makes the same calls as with a core that formats every `double`, so that what
is known of such cores holds for this document.
-/

namespace Hrbl

open Lib Lib.Outcome

variable {σ : Type}

/-! ## What is called -/

/-- What the sink takes is put behind the output, and nothing else is. -/
structure Core.Accepts (core : Core σ) (output : σ → Bytes) : Prop where
  writeBytes : ∀ data world world', core.writeBytes data world = (true, world') →
    output world' = output world ++ data
  allocate : ∀ bytes world, output (core.allocate bytes world).2 = output world
  formatSigned : ∀ value world, output (core.formatSigned 64 value world).2 = output world
  formatUnsigned : ∀ value world, output (core.formatUnsigned 64 value world).2 = output world
  formatHexadecimal : ∀ c : UInt8, ∀ world,
    output (core.formatHexadecimal 2 c.toUInt64 2 world).2 = output world
  formatDouble : ∀ bits, isNonFinite bits = false → ∀ world,
    output (core.formatDouble 64 bits world).2 = output world

/-- The formatter refuses no finite `double` of the document, at whatever time. -/
def Core.FormatsDoubles (core : Core σ) (document : Document) : Prop :=
  ∀ bits, .float64 bits ∈ membersScalars document → isNonFinite bits = false →
    ∀ world, (core.formatDouble 64 bits world).1 ≠ none

/-- The same core, but for a zero where a `double` is not formatted. -/
def Core.sparing (core : Core σ) : Core σ :=
  { core with
    formatDouble := fun size bits world =>
      match core.formatDouble size bits world with
      | (some text, world') => (some text, world')
      | (none, _) => (some [0x30], world) }

theorem Core.sparing_formatDouble (core : Core σ) {size : Nat} {bits : UInt64}
    (h : ∀ world, (core.formatDouble size bits world).1 ≠ none) :
    core.sparing.formatDouble size bits = core.formatDouble size bits := by
  funext world
  have hsome := h world
  rw [sparing]
  dsimp only
  rcases hcall : core.formatDouble size bits world with ⟨_ | text, world'⟩
  · rw [hcall] at hsome
    exact absurd rfl hsome
  · rfl

/-- What it formats has been formatted, or it is the zero. -/
theorem Core.sparing_eq_some (core : Core σ) (size : Nat) (bits : UInt64) (world : σ) :
    (∃ text world', core.formatDouble size bits world = (some text, world') ∧
      core.sparing.formatDouble size bits world = (some text, world')) ∨
    core.sparing.formatDouble size bits world = (some [0x30], world) := by
  rw [sparing]
  dsimp only
  rcases core.formatDouble size bits world with ⟨_ | text, world'⟩
  · exact .inr rfl
  · exact .inl ⟨text, world', rfl, rfl⟩

theorem Core.Accepts.appends {core : Core σ} {output : σ → Bytes} (h : core.Accepts output) :
    core.sparing.Appends output where
  writeBytes := h.writeBytes
  allocate := h.allocate
  formatSigned := h.formatSigned
  formatUnsigned := h.formatUnsigned
  formatHexadecimal := h.formatHexadecimal
  formatDouble := by
    intro bits hfinite world
    rcases core.sparing_eq_some 64 bits world with ⟨text, world', hcall, hrun⟩ | hrun
    · refine ⟨text, world', hrun, ?_⟩
      have hkept := h.formatDouble bits hfinite world
      rwa [hcall] at hkept
    · exact ⟨_, world, hrun, rfl⟩

theorem Core.Grants.sparing {core : Core σ} (h : core.Grants) : core.sparing.Grants where
  writeBytes := h.writeBytes
  allocate := h.allocate
  formatSigned := h.formatSigned
  formatUnsigned := h.formatUnsigned
  formatHexadecimal := h.formatHexadecimal

/-! ## Calls for a document -/

section

variable {core core' : Core σ}

/-- The two cores have the same calls, of the formatter of doubles only those for the finite ones
among these scalars. -/
structure SameCalls (core core' : Core σ) (scalars : List Scalar) : Prop where
  writeBytes : core'.writeBytes = core.writeBytes
  allocate : core'.allocate = core.allocate
  formatSigned : core'.formatSigned = core.formatSigned
  formatUnsigned : core'.formatUnsigned = core.formatUnsigned
  formatHexadecimal : core'.formatHexadecimal = core.formatHexadecimal
  formatDouble : ∀ bits, .float64 bits ∈ scalars → isNonFinite bits = false →
    core'.formatDouble 64 bits = core.formatDouble 64 bits

theorem Core.FormatsDoubles.sameCalls {document : Document} (h : core.FormatsDoubles document) :
    SameCalls core core.sparing (membersScalars document) where
  writeBytes := rfl
  allocate := rfl
  formatSigned := rfl
  formatUnsigned := rfl
  formatHexadecimal := rfl
  formatDouble := fun bits hmem hfinite => core.sparing_formatDouble (h bits hmem hfinite)

namespace SameCalls

variable {scalars scalars' : List Scalar}

theorem mono (h : SameCalls core core' scalars') (hsub : ∀ s ∈ scalars, s ∈ scalars') :
    SameCalls core core' scalars :=
  { h with formatDouble := fun bits hmem => h.formatDouble bits (hsub _ hmem) }

theorem left (h : SameCalls core core' (scalars ++ scalars')) : SameCalls core core' scalars :=
  h.mono fun _ hs => List.mem_append_left _ hs

theorem right (h : SameCalls core core' (scalars ++ scalars')) : SameCalls core core' scalars' :=
  h.mono fun _ hs => List.mem_append_right _ hs

theorem iniWrite (h : SameCalls core core' scalars) (data : Bytes) :
    iniWrite core' data = iniWrite core data := by
  unfold Hrbl.iniWrite exportWriteAll
  rw [h.writeBytes]

theorem scratchAlloc (h : SameCalls core core' scalars) (bytes : Nat) (failed : ExportM σ Unit) :
    scratchAlloc core' bytes failed = scratchAlloc core bytes failed := by
  unfold Hrbl.scratchAlloc
  rw [h.allocate]

theorem iniEscapedLoop (h : SameCalls core core' scalars) (data : Bytes) (length i : Nat) :
    iniEscapedLoop core' data length i = iniEscapedLoop core data length i := by
  have hbyte : ∀ c, iniWriteByte core' c = iniWriteByte core c := by
    intro c
    unfold iniWriteByte iniWriteLiteral
    simp only [h.iniWrite, h.formatHexadecimal]
  fun_induction Hrbl.iniEscapedLoop core data length i with
  | case1 i hi hnone => rw [Hrbl.iniEscapedLoop, if_pos hi, hnone]
  | case2 i hi c hsome ih =>
    rw [Hrbl.iniEscapedLoop, if_pos hi, hsome]
    simp only [hbyte, ih]
  | case3 i hi => rw [Hrbl.iniEscapedLoop, if_neg hi]

theorem printIniScalar {s : Scalar} (h : SameCalls core core' [s]) :
    printIniScalar core' s = printIniScalar core s := by
  cases s with
  | null => exact h.iniWrite _
  | bool value =>
    cases value with
    | false => exact h.iniWrite _
    | true => exact h.iniWrite _
  | int64 value =>
    unfold Hrbl.printIniScalar
    simp only [h.formatSigned, h.iniWrite]
  | uint64 value =>
    unfold Hrbl.printIniScalar
    simp only [h.formatUnsigned, h.iniWrite]
  | float64 bits =>
    change iniWriteFloat core' bits = iniWriteFloat core bits
    unfold iniWriteFloat iniWriteLiteral
    by_cases hfinite : isNonFinite bits = true
    · rw [if_pos hfinite, if_pos hfinite, h.iniWrite]
    · have hcall := h.formatDouble bits List.mem_cons_self (Bool.eq_false_iff.mpr hfinite)
      rw [if_neg hfinite, if_neg hfinite, hcall]
      simp only [h.iniWrite]
  | string value =>
    unfold Hrbl.printIniScalar iniWriteEscaped iniWriteLiteral
    simp only [h.iniWrite, h.iniEscapedLoop]

theorem printIniElements {elements : List Value}
    (h : SameCalls core core' (elementsScalars elements)) (key : Bytes) :
    printIniElements core' key elements = printIniElements core key elements := by
  induction elements with
  | nil => rfl
  | cons value elements ih =>
    cases value with
    | scalar s =>
      have hscalar : SameCalls core core' [s] := h.left
      unfold Hrbl.printIniElements iniWriteLiteral
      simp only [h.iniWrite, hscalar.printIniScalar, ih h.right]
    | block members => rfl
    | array inner => rfl

mutual

theorem printIniEntry : ∀ {value : Value}, SameCalls core core' (valueScalars value) →
    ∀ section_ key : Bytes,
      printIniEntry core' section_ key value = printIniEntry core section_ key value
  | .scalar s, h, section_, key => by
    have hscalar : SameCalls core core' [s] := h
    rw [Hrbl.printIniEntry, Hrbl.printIniEntry]
    unfold iniWriteLiteral
    simp only [h.iniWrite, hscalar.printIniScalar]
  | .array elements, h, section_, key => by
    rw [Hrbl.printIniEntry, Hrbl.printIniEntry]
    exact printIniElements h key
  | .block members, h, section_, key => by
    have hmembers : SameCalls core core' (membersScalars members) := h
    rw [Hrbl.printIniEntry, Hrbl.printIniEntry]
    unfold iniWriteLiteral
    simp only [h.iniWrite, h.scratchAlloc, printIniPlain hmembers, printIniBlocks hmembers]

theorem printIniPlain : ∀ {members : List (Bytes × Value)},
    SameCalls core core' (membersScalars members) → ∀ (section_ : Bytes) (bytes : Nat)
      (gathered : Bool), printIniPlain core' section_ bytes gathered members =
        printIniPlain core section_ bytes gathered members
  | [], _, _, _, _ => by rw [Hrbl.printIniPlain, Hrbl.printIniPlain]
  | (key, value) :: members, h, section_, bytes, gathered => by
    have hvalue : SameCalls core core' (valueScalars value) := h.left
    have hmembers : SameCalls core core' (membersScalars members) := h.right
    rw [Hrbl.printIniPlain, Hrbl.printIniPlain]
    simp only [h.scratchAlloc, printIniEntry hvalue, printIniPlain hmembers]

theorem printIniBlocks : ∀ {members : List (Bytes × Value)},
    SameCalls core core' (membersScalars members) → ∀ section_ : Bytes,
      printIniBlocks core' section_ members = printIniBlocks core section_ members
  | [], _, _ => by rw [Hrbl.printIniBlocks, Hrbl.printIniBlocks]
  | (key, value) :: members, h, section_ => by
    have hvalue : SameCalls core core' (valueScalars value) := h.left
    have hmembers : SameCalls core core' (membersScalars members) := h.right
    rw [Hrbl.printIniBlocks, Hrbl.printIniBlocks]
    simp only [printIniEntry hvalue, printIniBlocks hmembers]

end

theorem printIniRootPlain {members : List (Bytes × Value)}
    (h : SameCalls core core' (membersScalars members)) (bytes : Nat)
    (blocks : List (Bytes × Value)) : printIniRootPlain core' bytes members blocks =
      printIniRootPlain core bytes members blocks := by
  induction members generalizing blocks with
  | nil => rfl
  | cons member members ih =>
    obtain ⟨key, value⟩ := member
    have hvalue : SameCalls core core' (valueScalars value) := h.left
    have hmembers : SameCalls core core' (membersScalars members) := h.right
    rw [Hrbl.printIniRootPlain, Hrbl.printIniRootPlain]
    simp only [h.allocate, hvalue.printIniEntry, ih hmembers]

theorem printIniRootBlocks {blocks : List (Bytes × Value)}
    (h : SameCalls core core' (membersScalars blocks)) :
    printIniRootBlocks core' blocks = printIniRootBlocks core blocks := by
  induction blocks with
  | nil => rfl
  | cons member blocks ih =>
    obtain ⟨key, value⟩ := member
    have hvalue : SameCalls core core' (valueScalars value) := h.left
    have hblocks : SameCalls core core' (membersScalars blocks) := h.right
    rw [Hrbl.printIniRootBlocks, Hrbl.printIniRootBlocks]
    simp only [hvalue.printIniEntry, ih hblocks]

theorem printIniRoots {document : Document}
    (h : SameCalls core core' (membersScalars document)) :
    printIniRoots core' document = printIniRoots core document := by
  unfold Hrbl.printIniRoots
  simp only [h.scratchAlloc, h.printIniRootPlain]
  split
  · rfl
  · -- the blocks that are gathered are members of the document
    refine bind_congr fun _ => ?_
    refine (Keeps.printIniRootPlain_returns core _ document []).bind_congr fun blocks hblocks => ?_
    refine (h.mono fun s hs => ?_).printIniRootBlocks
    obtain ⟨m, hm, hmem⟩ := mem_membersScalars.mp hs
    exact mem_membersScalars.mpr ⟨m, hblocks m hm, hmem⟩

/-! ## Lines -/

theorem isIniValue {s : Scalar} (h : SameCalls core core' [s]) {text : Bytes} :
    IsIniValue core' s text ↔ IsIniValue core s text := by
  have hbyte : IsIniByte core' = IsIniByte core := by
    funext c piece
    unfold IsIniByte
    rw [h.formatHexadecimal]
  cases s with
  | null => exact Iff.rfl
  | bool value =>
    cases value with
    | false => exact Iff.rfl
    | true => exact Iff.rfl
  | int64 value =>
    unfold IsIniValue
    rw [h.formatSigned]
  | uint64 value =>
    unfold IsIniValue
    rw [h.formatUnsigned]
  | float64 bits =>
    rw [IsIniValue, IsIniValue]
    by_cases hfinite : isNonFinite bits = true
    · rw [if_pos hfinite, if_pos hfinite]
    · have hcall := h.formatDouble bits List.mem_cons_self (Bool.eq_false_iff.mpr hfinite)
      rw [if_neg hfinite, if_neg hfinite, hcall]
  | string value =>
    unfold IsIniValue
    rw [hbyte]

end SameCalls

end

/-- The scalar in a line. -/
def IniLine.scalar? : IniLine → Option Scalar
  | .blank => none
  | .header _ => none
  | .record _ s => some s
  | .element _ s => some s

theorem SameCalls.isIniLine {core core' : Core σ} {scalars : List Scalar} {line : IniLine}
    {text : Bytes} (h : SameCalls core core' scalars)
    (hline : ∀ s, line.scalar? = some s → s ∈ scalars) :
    IsIniLine core' line text ↔ IsIniLine core line text := by
  have hvalue : ∀ s, line.scalar? = some s → ∀ written,
      IsIniValue core' s written ↔ IsIniValue core s written := fun s hs written =>
    (h.mono (List.forall_mem_singleton.mpr (hline s hs))).isIniValue
  cases line with
  | blank => exact Iff.rfl
  | header name => exact Iff.rfl
  | record key s =>
    unfold IsIniLine
    simp only [hvalue s rfl]
  | element key s =>
    unfold IsIniLine
    simp only [hvalue s rfl]

theorem scalar_elementLines {key : Bytes} {elements : List Value} {line : IniLine} {s : Scalar}
    (hline : line ∈ elementLines key elements) (hs : line.scalar? = some s) :
    s ∈ elementsScalars elements := by
  induction elements with
  | nil => exact absurd hline List.not_mem_nil
  | cons value elements ih =>
    rw [elementLines, List.filterMap_cons] at hline
    rw [elementsScalars, List.mem_append]
    cases value with
    | scalar t =>
      rcases List.mem_cons.mp hline with rfl | hrest
      · cases hs
        exact .inl List.mem_cons_self
      · exact .inr (ih hrest)
    | block members => exact .inr (ih hline)
    | array inner => exact .inr (ih hline)

mutual

/-- The scalars in the records of a value are below it. -/
theorem scalar_valueRecords {line : IniLine} {s : Scalar} (hs : line.scalar? = some s) :
    ∀ {value : Value} {key : Bytes}, line ∈ (valueRecords key value).flatten →
      s ∈ valueScalars value
  | .scalar t, key, hline => by
    rw [valueRecords, List.flatten_singleton, List.mem_singleton] at hline
    rw [hline] at hs
    cases hs
    exact List.mem_cons_self
  | .array elements, key, hline => by
    rw [valueRecords, List.flatten_singleton] at hline
    exact scalar_elementLines hline hs
  | .block members, key, hline => scalar_membersRecords hs hline

theorem scalar_membersRecords {line : IniLine} {s : Scalar} (hs : line.scalar? = some s) :
    ∀ {members : List (Bytes × Value)}, line ∈ (membersRecords members).flatten →
      s ∈ membersScalars members
  | [], hline => absurd hline List.not_mem_nil
  | (key, value) :: members, hline => by
    rw [membersRecords, List.flatten_append, List.mem_append] at hline
    rw [membersScalars, List.mem_append]
    exact hline.imp (scalar_valueRecords hs) (scalar_membersRecords hs)

end

theorem scalar_documentLines {document : Document} {line : IniLine} {s : Scalar}
    (hline : line ∈ documentLines document) (hs : line.scalar? = some s) :
    s ∈ membersScalars document := by
  obtain ⟨groups, hgroups, hperm⟩ := documentLines_records document
  have hrecord : line.isRecord = true := by
    cases line with
    | blank => cases hs
    | header name => cases hs
    | record key value => rfl
    | element key value => rfl
  have hmem : line ∈ groups.flatten := by
    rw [← hgroups]
    exact List.mem_filter.mpr ⟨hline, hrecord⟩
  exact scalar_membersRecords hs (hperm.flatten.mem_iff.mp hmem)

/-- The lines of a document are the same texts. -/
theorem SameCalls.areIniLines {core core' : Core σ} {document : Document} {text : Bytes}
    (h : SameCalls core core' (membersScalars document))
    (htext : AreIniLines core' (documentLines document) text) :
    AreIniLines core (documentLines document) text := by
  obtain ⟨texts, hlines, rfl⟩ := htext
  refine ⟨texts, ?_, rfl⟩
  rw [List.forall₂_iff_get] at hlines ⊢
  refine ⟨hlines.1, fun i hi hi' => ?_⟩
  exact (h.isIniLine fun s hs => scalar_documentLines (List.getElem_mem hi) hs).mp
    (hlines.2 i hi hi')

section

variable {core : Core σ}

/-- A value that is written for a scalar has been formatted. -/
theorem IsIniValue.formatted {bits : UInt64} {text : Bytes} (h : IsIniValue core (.float64 bits) text)
    (hfinite : isNonFinite bits = false) : ∃ world, (core.formatDouble 64 bits world).1 ≠ none := by
  rw [IsIniValue, if_neg (by rw [hfinite]; exact Bool.false_ne_true)] at h
  obtain ⟨world, world', hrun⟩ := h
  refine ⟨world, ?_⟩
  rw [hrun]
  exact Option.some_ne_none text

theorem line_elementsScalars {key : Bytes} {elements : List Value} {s : Scalar}
    (hflat : (Value.array elements).flat = true) (hs : s ∈ elementsScalars elements) :
    IniLine.element key s ∈ elementLines key elements := by
  induction elements with
  | nil => exact absurd hs List.not_mem_nil
  | cons value elements ih =>
    rw [Value.flat, List.all_cons, Bool.and_eq_true] at hflat
    rw [elementsScalars, List.mem_append] at hs
    rw [elementLines, List.filterMap_cons]
    cases value with
    | scalar t =>
      rcases hs with hs | hs
      · obtain rfl := List.mem_singleton.mp hs
        exact List.mem_cons_self
      · exact List.mem_cons_of_mem _ (ih hflat.2 hs)
    | block members => exact absurd hflat.1 Bool.false_ne_true
    | array inner => exact absurd hflat.1 Bool.false_ne_true

mutual

/-- Without containers in arrays, every scalar below a value has its record. -/
theorem line_valueScalars {s : Scalar} : ∀ {value : Value} {key : Bytes}, value.flat = true →
    s ∈ valueScalars value →
      ∃ line ∈ (valueRecords key value).flatten, line.scalar? = some s
  | .scalar t, key, _, hs => by
    obtain rfl := List.mem_singleton.mp hs
    exact ⟨.record key s, List.mem_cons_self, rfl⟩
  | .array elements, key, hflat, hs => by
    refine ⟨.element key s, ?_, rfl⟩
    rw [valueRecords, List.flatten_singleton]
    exact line_elementsScalars hflat hs
  | .block members, key, hflat, hs => line_membersScalars hflat hs

theorem line_membersScalars {s : Scalar} : ∀ {members : List (Bytes × Value)},
    membersFlat members = true → s ∈ membersScalars members →
      ∃ line ∈ (membersRecords members).flatten, line.scalar? = some s
  | [], _, hs => absurd hs List.not_mem_nil
  | (key, value) :: members, hflat, hs => by
    obtain ⟨hvalue, hmembers⟩ := WritesUnless.membersFlat_cons.mp hflat
    rw [membersRecords, List.flatten_append]
    rcases List.mem_append.mp hs with hs | hs
    · obtain ⟨line, hline, hscalar⟩ := line_valueScalars hvalue hs
      exact ⟨line, List.mem_append_left _ hline, hscalar⟩
    · obtain ⟨line, hline, hscalar⟩ := line_membersScalars hmembers hs
      exact ⟨line, List.mem_append_right _ hline, hscalar⟩

end

theorem line_documentScalars {document : Document} (hflat : membersFlat document = true)
    {s : Scalar} (hs : s ∈ membersScalars document) :
    ∃ line ∈ documentLines document, line.scalar? = some s := by
  obtain ⟨line, hline, hscalar⟩ := line_membersScalars hflat hs
  obtain ⟨groups, hgroups, hperm⟩ := documentLines_records document
  have hmem : line ∈ groups.flatten := hperm.flatten.mem_iff.mpr hline
  rw [← hgroups] at hmem
  exact ⟨line, (List.mem_filter.mp hmem).1, hscalar⟩

/-- Where the lines of a document are written, its finite doubles have been formatted. -/
theorem AreIniLines.formatted {document : Document} {text : Bytes}
    (htext : AreIniLines core (documentLines document) text) (hflat : membersFlat document = true)
    {bits : UInt64} (hmem : .float64 bits ∈ membersScalars document)
    (hfinite : isNonFinite bits = false) : ∃ world, (core.formatDouble 64 bits world).1 ≠ none := by
  obtain ⟨line, hline, hscalar⟩ := line_documentScalars hflat hmem
  obtain ⟨texts, hlines, -⟩ := htext
  obtain ⟨written, hwritten⟩ := exists_row hlines hline
  cases line with
  | blank => cases hscalar
  | header name => cases hscalar
  | record key s =>
    cases hscalar
    obtain ⟨value, hvalue, -⟩ := hwritten
    exact hvalue.formatted hfinite
  | element key s =>
    cases hscalar
    obtain ⟨value, hvalue, -⟩ := hwritten
    exact hvalue.formatted hfinite

end

/-! ## Other calls -/

/-- No call but the formatter of doubles refuses anything. -/
structure Core.ServesOthers (core : Core σ) : Prop where
  writeBytes : ∀ data world, (core.writeBytes data world).1 = true
  allocate : ∀ bytes world, (core.allocate bytes world).1 = true
  formatSigned : ∀ size value world, (core.formatSigned size value world).1 ≠ none
  formatUnsigned : ∀ size value world, (core.formatUnsigned size value world).1 ≠ none
  formatHexadecimal : ∀ size value width world,
    (core.formatHexadecimal size value width world).1 ≠ none

/-- Whether a `double` is formatted is a matter of the `double`. -/
def Core.FormatsByBits (core : Core σ) : Prop := ∀ bits world world',
  (core.formatDouble 64 bits world).1 ≠ none → (core.formatDouble 64 bits world').1 ≠ none

theorem Core.ServesOthers.grants {core : Core σ} (h : core.ServesOthers) : core.Grants where
  writeBytes := h.writeBytes
  allocate := h.allocate
  formatSigned := h.formatSigned 64
  formatUnsigned := h.formatUnsigned 64
  formatHexadecimal c _ := h.formatHexadecimal 2 c.toUInt64 2

/-- Where nothing else is refused, the export of a document without containers in arrays is never
marked as failed, whatever doubles are not formatted. -/
theorem printIniRoots_served {core : Core σ} (h : core.ServesOthers) {document : Document}
    (hflat : membersFlat document = true) (world : σ) :
    (exportEnd (printIniRoots core document) world).1 = .ok true := by
  let I : ExportState σ → Prop := fun s => s.writeFailed = false
  let E : ExportStop → ExportState σ → Prop := fun stop s => stop = .failed ∧ I s
  have hserved : ∀ {α : Type} {served : α → Prop} {call : σ → α × σ},
      (∀ world, served (call world).1) → Served I E served call :=
    fun hcall s hs => ⟨fun _ => hs, fun hnot => absurd (hcall s.world) hnot⟩
  have hkeeps : core.KeepsIni I E :=
    { marked := fun s hs _ => ⟨rfl, hs⟩
      stop := fun s hs => ⟨rfl, hs⟩
      writeBytes := fun data => hserved (h.writeBytes data)
      allocate := fun bytes => hserved (h.allocate bytes)
      formatSigned := fun size value => hserved (h.formatSigned size value)
      formatUnsigned := fun size value => hserved (h.formatUnsigned size value)
      formatHexadecimal := fun size value width => hserved (h.formatHexadecimal size value width)
      formatDouble := fun size bits s hs => ⟨fun _ => hs, fun _ => ⟨rfl, hs⟩⟩ }
  have halloc : Keeps I (fun _ _ => False)
      (scratchAlloc core (document.length * 24) (throw .failed)) := by
    intro s hs
    rw [scratchAlloc, callCore_bind, h.allocate]
    refine ⟨fun a s' hok => ?_, fun e s' hstop => ?_⟩
    · cases hok
      exact hs
    · cases hstop
  have hroots := Keeps.printIniRoots hkeeps (fun s hs => hs.2)
    (fun e s hne hs => absurd hs.1 hne) (.inr hflat) halloc { world, writeFailed := false } rfl
  cases hrun : printIniRoots core document { world, writeFailed := false } with
  | ok a s =>
    have hready : s.writeFailed = false := hroots.1 a s hrun
    rw [exportEnd_ok hrun, hready]
    rfl
  | error stop s => exact (hroots.2 stop s hrun).elim

/-! ## Documents and files -/

/-- Where its finite doubles are formatted, a document is written as its lines if its export
returns `true`, which it does if no array has a container in it and nothing else is refused. -/
theorem printIniRoots_formats {core : Core σ} {output : σ → Bytes} (h : core.Accepts output)
    {document : Document} (hdoubles : core.FormatsDoubles document) (world : σ) :
    ∃ result world', exportEnd (printIniRoots core document) world = (.ok result, world') ∧
    (result = true → membersFlat document = true ∧ ∃ text,
      output world' = output world ++ text ∧ AreIniLines core (documentLines document) text) ∧
    (membersFlat document = true → core.Grants → result = true) := by
  have hsame := hdoubles.sameCalls
  obtain ⟨result, world', hend, hlines, hreturns⟩ := printIniRoots_end h.appends document world
  rw [hsame.printIniRoots] at hend
  refine ⟨result, world', hend, fun htrue => ?_, fun hflat hgrants => ?_⟩
  · obtain ⟨hflat, text, houtput, htext⟩ := hlines htrue
    exact ⟨hflat, text, houtput, hsame.areIniLines htext⟩
  · exact hreturns hflat hgrants.sparing

theorem Core.FormatsDoubles.rearranged {core : Core σ} {document document' : Document}
    (h : core.FormatsDoubles document) (horder : RearrangedDocument List.Perm document document') :
    core.FormatsDoubles document' :=
  fun bits hmem => h bits (horder.mem_scalars.mp hmem)

/-- The same of a file that holds such a document, with its members in the order of the export. -/
theorem exportIniEx_formats {core : Core σ} {output : σ → Bytes} (h : core.Accepts output)
    (hsort : Sorts core.sortWithCompare) {hash64 : Bytes → UInt64} {r : Reader}
    {document : Document} (hfile : HoldsDocument hash64 r document) {levels : Nat}
    (hlevels : membersDepth document ≤ levels) (hdoubles : core.FormatsDoubles document)
    (how : Option ExportOptions) (world : σ) :
    ∃ result world' document', exportIniEx core levels r how world = (.ok result, world') ∧
      RearrangedDocument (exportOrder how) document document' ∧
      (result = true → membersFlat document = true ∧ ∃ text,
        output world' = output world ++ text ∧ AreIniLines core (documentLines document') text) ∧
      (membersFlat document = true → core.Grants → result = true) := by
  obtain ⟨document', horder, hprint⟩ :
      ∃ document', RearrangedDocument (exportOrder how) document document' ∧ _ :=
    iniRoots_holds hsort hfile hlevels
  have hdoubles' := hdoubles.rearranged (horder.mono fun _ _ => exportOrder.perm)
  obtain ⟨result, world', hend, hlines, hreturns⟩ := printIniRoots_formats h hdoubles' world
  have hflat : membersFlat document' = membersFlat document :=
    horder.flat_eq fun _ _ => exportOrder.perm
  rw [hflat] at hlines hreturns
  refine ⟨result, world', document', ?_, horder, hlines, hreturns⟩
  rw [exportIniEx, hprint, hend]

theorem exportIniEx_served {core : Core σ} (h : core.ServesOthers)
    (hsort : Sorts core.sortWithCompare) {hash64 : Bytes → UInt64} {r : Reader}
    {document : Document} (hfile : HoldsDocument hash64 r document) {levels : Nat}
    (hlevels : membersDepth document ≤ levels) (hflat : membersFlat document = true)
    (how : Option ExportOptions) (world : σ) :
    (exportIniEx core levels r how world).1 = .ok true := by
  obtain ⟨document', horder, hprint⟩ :
      ∃ document', RearrangedDocument (exportOrder how) document document' ∧ _ :=
    iniRoots_holds hsort hfile hlevels
  rw [exportIniEx, hprint]
  refine printIniRoots_served h ?_ world
  rw [horder.flat_eq fun _ _ => exportOrder.perm, hflat]

end Hrbl
