import Hrbl.Acceptance
import Hrbl.ExportYaml
import Hrbl.PrintingIni

/-!
# Printing a document as YAML events

The YAML exporter without a file, as for JSON and INI: on a file that holds a document, it makes
the calls for the document with its members in the order of the export. A length has to be one
as an `int`; `Short` is what the texts of the document are.
-/

namespace Hrbl

open Lib Lib.Outcome

variable {σ : Type}

/-! ## Documents -/

section

variable (core : Core σ) (lib : LibYaml σ)

def printYamlString (value : Bytes) : ExportM σ Unit :=
  yamlEmit core lib (.scalar (quotedScalar value))

def printYamlScalar : Scalar → ExportM σ Unit
  | .null => yamlEmitText core lib (ascii ['n', 'u', 'l', 'l'])
  | .bool false => yamlEmitText core lib (ascii ['f', 'a', 'l', 's', 'e'])
  | .bool true => yamlEmitText core lib (ascii ['t', 'r', 'u', 'e'])
  | .int64 value => do
    let text ← formatted (core.formatSigned 64 value)
    yamlEmitText core lib text
  | .uint64 value => do
    let text ← formatted (core.formatUnsigned 64 value)
    yamlEmitText core lib text
  | .float64 bits => yamlEmitFloat core lib bits
  | .string value => printYamlString core lib value

mutual

def printYamlValue : Value → ExportM σ Unit
  | .scalar s => printYamlScalar core lib s
  | .block members => do
    yamlEmitMappingStart core lib
    if members.length ≠ 0 then scratchAlloc core (members.length * 24) fail
    printYamlMembers members
    yamlEmitMappingEnd core lib
  | .array elements => do
    yamlEmitSequenceStart core lib
    printYamlElements elements
    yamlEmitSequenceEnd core lib

def printYamlMembers : List (Bytes × Value) → ExportM σ Unit
  | [] => pure ()
  | (key, value) :: members => do
    printYamlString core lib key
    printYamlValue value
    printYamlMembers members

def printYamlElements : List Value → ExportM σ Unit
  | [] => pure ()
  | value :: elements => do
    printYamlValue value
    printYamlElements elements

end

/-- The members at the root, and whether all events of them have been emitted. -/
def printYamlRoots (document : Document) : ExportM σ Bool :=
  if document.length = 0 then do
    yamlEmitRaw core lib (.mappingStart true .block)
    yamlEmitRaw core lib .mappingEnd
    return true
  else do
    scratchAlloc core (document.length * 24) (throw .failed)
    yamlEmitMappingStart core lib
    let emitted ← attempt (printYamlMembers core lib document)
    let ended ← attempt (yamlEmitMappingEnd core lib)
    return emitted && ended

end

/-! ## Texts -/

/-- A length that is one as an `int`. -/
def Short (text : Bytes) : Prop := text.length < 2 ^ 31

instance (text : Bytes) : Decidable (Short text) := inferInstanceAs (Decidable (_ < _))

theorem intOfLength_eq {length : Nat} (h : length < 2 ^ 31) : intOfLength length = length := by
  have hmod : length % 2 ^ 32 = length := Nat.mod_eq_of_lt (by omega)
  rw [intOfLength, BitVec.toInt_eq_toNat_of_lt, BitVec.toNat_ofNat, hmod]
  rw [BitVec.toNat_ofNat, hmod]
  omega

/-- A short text is copied as it is, from wherever it starts. -/
theorem scalarText_eq {data text : Bytes} (hshort : Short text) (h : text <+: data) :
    scalarText data text.length = .ok text := by
  have hle := h.length_le
  have htoNat : ((text.length : Int)).toNat = text.length := Int.toNat_natCast _
  rw [scalarText, intOfLength_eq hshort, htoNat, if_neg (by omega), if_pos hle,
    List.prefix_iff_eq_take.mp h, List.length_take, Nat.min_eq_left hle]

theorem scalarText_load {b : Buffer} {offset : UInt64} {text : Bytes} (hshort : Short text)
    (h : load b offset text.length = .ok text) :
    scalarText (b.from offset) text.length = .ok text := by
  obtain ⟨-, htext⟩ := load_eq_ok h
  refine scalarText_eq hshort (List.prefix_iff_eq_take.mpr ?_)
  exact htext

section

variable {core : Core σ} {lib : LibYaml σ} {options : Option ExportOptions} {r : Reader}
  {hash64 : Bytes → UInt64}

/-- A string of the file is emitted as the string. -/
theorem yamlEmitScalarDoubleQuoted_load {offset : UInt64} {text : Bytes} (hshort : Short text)
    (h : load r.base offset text.length = .ok text) :
    yamlEmitScalarDoubleQuoted core lib (r.base.from offset) text.length =
      printYamlString core lib text := by
  rw [yamlEmitScalarDoubleQuoted, scalarText_load hshort h]
  rfl

/-! ## Values -/

/-- A scalar of the file is emitted as the scalar. -/
theorem yamlEmitValue_scalar {offset : UInt64} {s : Scalar} (h : HoldsScalar r offset s)
    (hshort : ∀ u ∈ valueTexts (.scalar s), Short u) (levels : Nat) :
    yamlEmitValue core lib options r (levels + 1) offset = printYamlScalar core lib s := by
  have hscalar := h.scalarAt
  rw [yamlEmitValue, h.kindAt]
  cases s with
  | null => rfl
  | bool value => cases value <;> rfl
  | string value =>
    obtain ⟨range, hrange, hlength, hload⟩ := hscalar
    have hemit : yamlEmitScalarDoubleQuoted core lib (r.base.from range.offset) value.length = _ :=
      yamlEmitScalarDoubleQuoted_load (hshort value List.mem_cons_self) hload
    simp only [fromReader, Scalar.kind, pure_bind, hrange, printYamlScalar, hlength, hemit]
  | _ =>
    rw [ScalarAt] at hscalar
    simp only [fromReader, Scalar.kind, pure_bind, hscalar, printYamlScalar]

/-- What stands for a member: its key in the pool, and an offset for which the same calls are
made as for its value. -/
structure YamlRow (core : Core σ) (lib : LibYaml σ) (r : Reader)
    (child : UInt64 → ExportM σ Unit) (entry : YamlSortEntry) (member : Bytes × Value) : Prop where
  key : KeyAt r entry.keyPoolOffset entry.keyLength member.1
  short : Short member.1
  emit : child entry.valueOffset = printYamlValue core lib member.2

variable {child : UInt64 → ExportM σ Unit} {entries : List YamlSortEntry}
  {members : List (Bytes × Value)}

/-- Rows of members are put into the order of the export. -/
theorem yamlArrangeEntries_rows (hsort : Sorts core.sortWithCompare)
    (hrows : List.Forall₂ (YamlRow core lib r child) entries members) :
    ∃ arranged out, yamlArrangeEntries core options r entries = pure arranged ∧
      List.Forall₂ (YamlRow core lib r child) arranged out ∧ exportOrder options members out := by
  rw [exportOrder, yamlArrangeEntries]
  by_cases hsorted : sortKeysOf options = true
  · rw [if_pos hsorted, if_pos hsorted]
    have hkey : ∀ e m, YamlRow core lib r child e m →
        keyBytes r e.keyPoolOffset e.keyLength = m.1 := by
      intro e m hrow
      exact hrow.key.keyBytes_eq
    refine sortEntries_key hsort hrows hkey ?_
    intro a ha b hb
    obtain ⟨m, hm⟩ := exists_row hrows ha
    obtain ⟨n, hn⟩ := exists_row hrows hb
    rw [hm.key.keyBytes_eq, hn.key.keyBytes_eq]
    exact keyLess_eq hm.key hn.key
  · rw [if_neg hsorted, if_neg hsorted]
    exact ⟨entries, members, rfl, hrows, rfl⟩

/-- The loop over entries makes the calls for their members. -/
theorem yamlEntriesLoop_rows (hrows : List.Forall₂ (YamlRow core lib r child) entries members) :
    yamlEntriesLoop core lib r child entries = printYamlMembers core lib members := by
  induction hrows with
  | nil => rw [yamlEntriesLoop, printYamlMembers]
  | @cons entry member entries members hrow _ ih =>
    obtain ⟨key, value⟩ := member
    rw [yamlEntriesLoop, printYamlMembers, hrow.key.length_eq,
      yamlEmitScalarDoubleQuoted_load hrow.short hrow.key.load_eq, hrow.emit, ih]

/-- Entries of members are rows of rearranged members, in the order of the export. -/
theorem yamlRows_of_holds (hsort : Sorts core.sortWithCompare) {start : UInt64}
    (hchild : ∀ m ∈ members, ∀ offset, Holds hash64 r offset m.2 → ∃ value',
      Rearranged (exportOrder options) m.2 value' ∧
        child offset = printYamlValue core lib value')
    (hshort : ∀ m ∈ members, Short m.1) (h : HoldsMembers hash64 r start members) :
    ∃ entries arranged mid out,
      copyEntries r yamlSortEntryOf members.length start = .ok entries ∧
      yamlArrangeEntries core options r entries = pure arranged ∧
      RearrangedMembers (exportOrder options) members mid ∧ exportOrder options mid out ∧
      List.Forall₂ (YamlRow core lib r child) arranged out := by
  obtain ⟨raws, hcopy, hraws, -, -⟩ := copyEntries_holds yamlSortEntryOf h
  have hrow : ∀ raw, ∀ m ∈ members, RawAt hash64 r raw m → ∃ value',
      Rearranged (exportOrder options) m.2 value' ∧
        YamlRow core lib r child (yamlSortEntryOf raw.1 raw.2) (m.1, value') := by
    intro raw m hm hraw
    obtain ⟨value', hvalue, hemit⟩ := hchild m hm _ hraw.2
    exact ⟨value', hvalue, hraw.1.keyAt, hshort m hm, hemit⟩
  obtain ⟨mid, hmid, hrows⟩ := rows_of_raws hraws hrow
  obtain ⟨arranged, out, harrange, hout, horder⟩ := yamlArrangeEntries_rows hsort hrows
  exact ⟨_, arranged, mid, out, hcopy, harrange, hmid, horder, hout⟩

/-- On a file that holds a block, the exporter makes the calls for its members. -/
theorem yamlEmitBlock_rows {offset start : UInt64} {header : BlockHeader}
    {arranged : List YamlSortEntry} (hbody : blockBodyOffsets r offset = .ok (header, start))
    (hcopy : copyEntries r yamlSortEntryOf members.length start = .ok entries)
    (harrange : yamlArrangeEntries core options r entries = pure arranged)
    (hcount : header.childCount.toNat = members.length)
    (hrows : List.Forall₂ (YamlRow core lib r child) arranged members) :
    yamlEmitBlock core lib options r child offset = (do
      yamlEmitMappingStart core lib
      if members.length ≠ 0 then scratchAlloc core (members.length * 24) fail
      printYamlMembers core lib members
      yamlEmitMappingEnd core lib) := by
  rw [yamlEmitBlock, hbody]
  by_cases hzero : members.length ≠ 0
  · simp only [fromReader, pure_bind, hcount, if_pos hzero, hcopy, harrange,
      yamlEntriesLoop_rows hrows]
  · obtain rfl := List.length_eq_zero_iff.mp (not_not.mp hzero)
    cases hrows
    cases hcopy
    simp only [fromReader, pure_bind, hcount, List.length_nil, copyEntries, ne_eq, not_true,
      if_false, yamlEntriesLoop, printYamlMembers]

/-- The loop over elements makes the calls for rearranged elements. -/
theorem yamlElementsLoop_holds :
    ∀ {elements : List Value} {start : UInt64}, HoldsElements hash64 r start elements →
      (∀ e ∈ elements, ∀ offset, Holds hash64 r offset e → ∃ value',
        Rearranged (exportOrder options) e value' ∧
          child offset = printYamlValue core lib value') →
      ∃ out, RearrangedElements (exportOrder options) elements out ∧
        yamlElementsLoop r child elements.length start = printYamlElements core lib out
  | [], _, _, _ => ⟨[], rfl, by rw [List.length_nil, yamlElementsLoop, printYamlElements]⟩
  | value :: elements, start, h, hchild => by
    rw [HoldsElements] at h
    obtain ⟨⟨-, offset, hoffset, hvalue⟩, hrest⟩ := h
    obtain ⟨hfirst, hothers⟩ := List.forall_mem_cons.mp hchild
    obtain ⟨out, hout, hprint⟩ := yamlElementsLoop_holds hrest hothers
    obtain ⟨value', hvalue', hemit⟩ := hfirst offset hvalue
    refine ⟨value' :: out, ⟨value', out, rfl, hvalue', hout⟩, ?_⟩
    have hnext : yamlElementsLoop r child elements.length (start + arrayElementSize) = _ := hprint
    rw [List.length_cons, yamlElementsLoop, printYamlElements, hoffset, hnext]
    simp only [fromReader, pure_bind, hemit]

theorem short_keys {members : List (Bytes × Value)}
    (h : ∀ u ∈ membersTexts members, Short u) : ∀ m ∈ members, Short m.1 := by
  intro m hm
  exact h _ (mem_membersTexts.mpr ⟨m, hm, .inl rfl⟩)

/-- On a file that holds a value, the exporter makes the calls for the value with its members
in the order of the export. -/
theorem yamlEmitValue_holds (hsort : Sorts core.sortWithCompare) {levels : Nat} :
    ∀ {value : Value} {offset : UInt64}, value.depth ≤ levels →
      (∀ u ∈ valueTexts value, Short u) → Holds hash64 r offset value →
      ∃ value', Rearranged (exportOrder options) value value' ∧
        yamlEmitValue core lib options r levels offset = printYamlValue core lib value' := by
  induction levels with
  | zero =>
    intro value offset hdepth
    cases value <;> cases hdepth
  | succ levels ih =>
    intro value offset hdepth hshort h
    cases value with
    | scalar s =>
      rw [Holds] at h
      refine ⟨.scalar s, rfl, ?_⟩
      rw [yamlEmitValue_scalar h hshort, printYamlValue]
    | block members =>
      rw [Holds] at h
      obtain ⟨hkind, header, start, hbody, hcount, hmembers⟩ := h
      rw [Value.depth] at hdepth
      have hchild : ∀ m ∈ members, ∀ offset, Holds hash64 r offset m.2 → ∃ value',
          Rearranged (exportOrder options) m.2 value' ∧
            yamlEmitValue core lib options r levels offset = printYamlValue core lib value' := by
        intro m hm offset hm'
        refine ih ?_ ?_ hm'
        · have hle := le_membersDepth hm
          omega
        · intro u hu
          exact hshort u (mem_membersTexts.mpr ⟨m, hm, .inr hu⟩)
      -- the members are printed in the order of the options
      obtain ⟨entries, arranged, mid, out, hcopy, harrange, hmid, horder, hrows⟩ :=
        yamlRows_of_holds hsort hchild (short_keys hshort) hmembers
      have hlength : members.length = out.length := by
        rw [← (exportOrder.perm horder).length_eq, hmid.length_eq]
      rw [hlength] at hcopy hcount
      refine ⟨.block out, ⟨mid, out, rfl, hmid, horder⟩, ?_⟩
      rw [yamlEmitValue, hkind, printYamlValue]
      simp only [fromReader, pure_bind, yamlEmitBlock_rows hbody hcopy harrange hcount hrows]
    | array elements =>
      rw [Holds] at h
      obtain ⟨hkind, header, start, hbody, hcount, helements⟩ := h
      rw [Value.depth] at hdepth
      have hchild : ∀ e ∈ elements, ∀ offset, Holds hash64 r offset e → ∃ value',
          Rearranged (exportOrder options) e value' ∧
            yamlEmitValue core lib options r levels offset = printYamlValue core lib value' := by
        intro e he offset he'
        refine ih ?_ ?_ he'
        · have hle := le_elementsDepth he
          omega
        · intro u hu
          exact hshort u (mem_elementsTexts.mpr ⟨e, he, hu⟩)
      obtain ⟨out, hout, hprint⟩ := yamlElementsLoop_holds helements hchild
      refine ⟨.array out, ⟨out, rfl, hout⟩, ?_⟩
      rw [yamlEmitValue, hkind, printYamlValue]
      simp only [fromReader, pure_bind, yamlEmitArray, hbody, hcount, hprint]

/-! ## The root index -/

/-- On a file that holds a document, the exporter makes the calls for the document with its
members in the order of the export. -/
theorem yamlRoots_holds (hsort : Sorts core.sortWithCompare) {document : Document}
    (h : HoldsDocument hash64 r document) (hshort : ∀ u ∈ membersTexts document, Short u)
    {levels : Nat} (hlevels : membersDepth document ≤ levels) :
    ∃ document' : Document, RearrangedDocument (exportOrder options) document document' ∧
      yamlRoots core lib options r levels = printYamlRoots core lib document' := by
  have hchild : ∀ m ∈ document, ∀ offset, Holds hash64 r offset m.2 → ∃ value',
      Rearranged (exportOrder options) m.2 value' ∧
        yamlEmitValue core lib options r levels offset = printYamlValue core lib value' := by
    intro m hm offset hm'
    refine yamlEmitValue_holds hsort ((le_membersDepth hm).trans hlevels) ?_ hm'
    intro u hu
    exact hshort u (mem_membersTexts.mpr ⟨m, hm, .inr hu⟩)
  obtain ⟨entries, arranged, mid, out, hcopy, harrange, hmid, horder, hrows⟩ :=
    yamlRows_of_holds hsort hchild (short_keys hshort) h.members
  have hlength : out.length = document.length := by
    rw [← (exportOrder.perm horder).length_eq, hmid.length_eq]
  have hroom : (r.header.rootCount * 24).toNat = document.length * 24 :=
    h.toNat_count_mul (by decide)
  refine ⟨out, ⟨mid, hmid, horder⟩, ?_⟩
  rw [yamlRoots, printYamlRoots]
  simp only [h.count_eq_zero, h.count, hcopy, hroom, fromReader, pure_bind, harrange, hlength,
    yamlEntriesLoop_rows hrows]

end

end Hrbl
