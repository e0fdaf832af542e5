import Hrbl.ExportIni
import Hrbl.Printing

/-!
# Printing a document as INI

The INI exporter without a file, as for JSON: on a file that holds a document, it makes the
calls for the document with its members in the order of the export.
-/

namespace Hrbl

open Lib Lib.Outcome

variable {σ : Type}

/-! ## Documents -/

section

variable (core : Core σ)

def printIniScalar : Scalar → ExportM σ Unit
  | .null => iniWriteLiteral core []
  | .bool false => iniWriteLiteral core (ascii ['f', 'a', 'l', 's', 'e'])
  | .bool true => iniWriteLiteral core (ascii ['t', 'r', 'u', 'e'])
  | .int64 value => do
    let text ← formatted (core.formatSigned 64 value)
    iniWrite core text
  | .uint64 value => do
    let text ← formatted (core.formatUnsigned 64 value)
    iniWrite core text
  | .float64 bits => iniWriteFloat core bits
  | .string value => iniWriteEscaped core value value.length

/-- A member that is a block. -/
def isBlock (member : Bytes × Value) : Bool := member.2.kind = .block

/-- The elements of an array, none of which may be a block or an array. -/
def printIniElements (key : Bytes) : List Value → ExportM σ Unit
  | [] => pure ()
  | .scalar s :: elements => do
    iniWrite core key
    iniWriteLiteral core [0x5B, 0x5D, 0x3D]
    printIniScalar core s
    iniWriteLiteral core [0x0A]
    printIniElements key elements
  | _ :: _ => fail

mutual

/-- A member in the block of a section. -/
def printIniEntry (section_ key : Bytes) : Value → ExportM σ Unit
  | .scalar s => do
    iniWrite core key
    iniWriteLiteral core [0x20, 0x3D, 0x20]
    printIniScalar core s
    iniWriteLiteral core [0x0A]
  | .array elements => printIniElements core key elements
  | .block members => do
    scratchAlloc core (newSectionLength section_.length key.length + 1) fail
    if members.length ≠ 0 then scratchAlloc core (members.length * 24) fail
    if (newSection section_ key).length ≠ 0 then do
      iniWriteLiteral core [0x5B]
      iniWrite core (newSection section_ key)
      iniWriteLiteral core [0x5D, 0x0A]
    printIniPlain (newSection section_ key) (members.length * 24) false members
    if members.any isBlock then do
      iniWriteLiteral core [0x0A]
      printIniBlocks (newSection section_ key) members

/-- The members that are no blocks; the first block takes an array for the blocks. -/
def printIniPlain (section_ : Bytes) (bytes : Nat) :
    Bool → List (Bytes × Value) → ExportM σ Unit
  | _, [] => pure ()
  | gathered, (key, value) :: members =>
    if value.kind = .block then do
      if !gathered then scratchAlloc core bytes fail
      printIniPlain section_ bytes true members
    else do
      printIniEntry section_ key value
      printIniPlain section_ bytes gathered members

/-- The members that are blocks. -/
def printIniBlocks (section_ : Bytes) : List (Bytes × Value) → ExportM σ Unit
  | [] => pure ()
  | (key, value) :: members =>
    if value.kind = .block then do
      printIniEntry section_ key value
      printIniBlocks section_ members
    else printIniBlocks section_ members

end

/-- The members at the root up to one that is not emitted, with the blocks among them. -/
def printIniRootPlain (bytes : Nat) :
    List (Bytes × Value) → List (Bytes × Value) → ExportM σ (List (Bytes × Value))
  | [], blocks => pure blocks
  | (key, value) :: members, blocks => do
    let s ← get
    if s.writeFailed then pure blocks
    else if value.kind = .block then do
      let allocated ← if blocks = [] then callCore (core.allocate bytes) else pure true
      if allocated then printIniRootPlain bytes members (blocks ++ [(key, value)])
      else breakFailed blocks
    else do
      let emitted ← attempt (printIniEntry core [] key value)
      if emitted then printIniRootPlain bytes members blocks else pure blocks

/-- The blocks at the root. -/
def printIniRootBlocks : List (Bytes × Value) → ExportM σ Unit
  | [] => pure ()
  | (key, value) :: blocks => do
    let s ← get
    if s.writeFailed then pure ()
    else do
      let emitted ← attempt (printIniEntry core [] key value)
      if emitted then printIniRootBlocks blocks else pure ()

/-- A document. -/
def printIniRoots (document : Document) : ExportM σ Unit :=
  if document.length = 0 then pure ()
  else do
    scratchAlloc core (document.length * 24) (throw .failed)
    let blocks ← printIniRootPlain core (document.length * 24) document []
    printIniRootBlocks core blocks

end

/-! ## Strings -/

theorem iniEscapedLoop_take (core : Core σ) (data : Bytes) (length i : Nat) :
    iniEscapedLoop core (data.take length) length i = iniEscapedLoop core data length i := by
  fun_induction iniEscapedLoop core data length i with
  | case1 i hi hnone =>
    rw [iniEscapedLoop, if_pos hi, List.getElem?_take_of_lt hi, hnone]
  | case2 i hi c hsome ih =>
    rw [iniEscapedLoop, if_pos hi, List.getElem?_take_of_lt hi, hsome]
    simp only [ih]
  | case3 i hi => rw [iniEscapedLoop, if_neg hi]

/-- A string of the file is written as the string. -/
theorem iniWriteEscaped_load (core : Core σ) {b : Buffer} {offset : UInt64} {s : Bytes}
    (h : load b offset s.length = .ok s) :
    iniWriteEscaped core (b.from offset) s.length = iniWriteEscaped core s s.length := by
  obtain ⟨-, hs⟩ := load_eq_ok h
  have hloop := iniEscapedLoop_take core (b.bytes.drop offset.toNat) s.length 0
  rw [← hs] at hloop
  rw [iniWriteEscaped, iniWriteEscaped, hloop]
  rfl

/-! ## Elements -/

section

variable {core : Core σ} {options : Option ExportOptions} {r : Reader} {hash64 : Bytes → UInt64}

/-- A scalar of the file is written as the scalar. -/
theorem iniWriteScalarValue_scalar {offset : UInt64} {s : Scalar} (h : HoldsScalar r offset s) :
    iniWriteScalarValue core r offset = printIniScalar core s := by
  have hscalar := h.scalarAt
  rw [iniWriteScalarValue, h.kindAt]
  cases s with
  | null => rfl
  | bool value => cases value <;> rfl
  | string value =>
    obtain ⟨range, hrange, hlength, hload⟩ := hscalar
    have hwrite := iniWriteEscaped_load core hload
    simp only [fromReader, Scalar.kind, pure_bind, hrange, printIniScalar, hlength, hwrite]
  | _ =>
    rw [ScalarAt] at hscalar
    simp only [fromReader, Scalar.kind, pure_bind, hscalar, printIniScalar]

theorem iniWriteKey_eq {entry : IniSortEntry} {key : Bytes}
    (h : KeyAt r entry.keyPoolOffset entry.keyLength key) :
    iniWriteKey core r entry = iniWrite core key := by
  have hkey : iniKey r entry = .ok key := by
    rw [iniKey, h.length_eq]
    exact loadBytes_eq h.load_eq
  simp only [iniWriteKey, hkey, fromReader, pure_bind]

/-- The loop over elements makes the calls for the elements. -/
theorem iniElementsLoop_holds {entry : IniSortEntry} {key : Bytes}
    (hkey : KeyAt r entry.keyPoolOffset entry.keyLength key) :
    ∀ {elements : List Value} {start : UInt64}, HoldsElements hash64 r start elements →
      iniElementsLoop core r entry elements.length start = printIniElements core key elements
  | [], _, _ => rfl
  | .scalar s :: elements, start, h => by
    rw [HoldsElements] at h
    obtain ⟨⟨-, offset, hoffset, hvalue⟩, hrest⟩ := h
    have hkind : ¬(s.kind = .block ∨ s.kind = .array) := by
      cases s with
      | bool value => cases value <;> decide
      | _ => exact of_decide_eq_true rfl
    have hnext : iniElementsLoop core r entry elements.length (start + arrayElementSize) = _ :=
      iniElementsLoop_holds hkey hrest
    rw [List.length_cons, iniElementsLoop, printIniElements, hoffset, hnext]
    simp only [fromReader, pure_bind, hvalue.kindAt, Value.kind, if_neg hkind,
      iniWriteKey_eq hkey, iniWriteScalarValue_scalar hvalue]
  | .block members :: elements, start, h => by
    rw [HoldsElements] at h
    obtain ⟨⟨-, offset, hoffset, hvalue⟩, -⟩ := h
    rw [List.length_cons, iniElementsLoop, hoffset]
    simp only [fromReader, pure_bind, hvalue.kindAt, Value.kind, true_or, if_true]
    rfl
  | .array inner :: elements, start, h => by
    rw [HoldsElements] at h
    obtain ⟨⟨-, offset, hoffset, hvalue⟩, -⟩ := h
    rw [List.length_cons, iniElementsLoop, hoffset]
    simp only [fromReader, pure_bind, hvalue.kindAt, Value.kind, or_true, if_true]
    rfl

/-- The calls for elements do not depend on the order of members inside of them. -/
theorem printIniElements_rearranged {order : List (Bytes × Value) → List (Bytes × Value) → Prop}
    {key : Bytes} : ∀ {elements elements' : List Value},
      RearrangedElements order elements elements' →
        printIniElements core key elements' = printIniElements core key elements
  | [], _, rfl => rfl
  | .scalar s :: _, _, ⟨_, _, rfl, hvalue, helements⟩ => by
    rw [Rearranged] at hvalue
    rw [hvalue, printIniElements, printIniElements, printIniElements_rearranged helements]
  | .block _ :: _, _, ⟨_, _, rfl, ⟨_, _, hvalue, _⟩, _⟩ => by
    rw [hvalue]
    rfl
  | .array _ :: _, _, ⟨_, _, rfl, ⟨_, hvalue, _⟩, _⟩ => by
    rw [hvalue]
    rfl

/-! ## Blocks -/

theorem Rearranged.kind_eq {order : List (Bytes × Value) → List (Bytes × Value) → Prop}
    {value value' : Value} (h : Rearranged order value value') : value'.kind = value.kind := by
  cases value with
  | scalar s =>
    rw [Rearranged] at h
    rw [h]
  | block members =>
    obtain ⟨_, _, rfl, _⟩ := h
    rfl
  | array elements =>
    obtain ⟨_, rfl, _⟩ := h
    rfl

/-- What stands for a member: its key in the pool, the kind of its value, and the same calls
in the block of every section. -/
structure IniRow (core : Core σ) (r : Reader) (block : Bytes → UInt64 → ExportM σ Unit)
    (entry : IniSortEntry) (member : Bytes × Value) : Prop where
  key : KeyAt r entry.keyPoolOffset entry.keyLength member.1
  kind : kindAt r entry.valueOffset = .ok member.2.kind
  emit : ∀ section_, iniEmitEntry core r block section_ entry =
    printIniEntry core section_ member.1 member.2

variable {block : Bytes → UInt64 → ExportM σ Unit} {entries blocks : List IniSortEntry}
  {members blockMembers : List (Bytes × Value)}

/-- Rows of members are put into the order of the export. -/
theorem iniArrangeEntries_rows (hsort : Sorts core.sortWithCompare)
    (hrows : List.Forall₂ (IniRow core r block) entries members) :
    ∃ arranged out, iniArrangeEntries core options r entries = pure arranged ∧
      List.Forall₂ (IniRow core r block) arranged out ∧ exportOrder options members out := by
  rw [exportOrder, iniArrangeEntries]
  by_cases hsorted : sortKeysOf options = true
  · rw [if_pos hsorted, if_pos hsorted]
    have hkey : ∀ e m, IniRow core r block e m →
        keyBytes r e.keyPoolOffset e.keyLength = m.1 := fun e m hrow => hrow.key.keyBytes_eq
    refine sortEntries_key hsort hrows hkey fun a ha b hb => ?_
    obtain ⟨m, hm⟩ := exists_row hrows ha
    obtain ⟨n, hn⟩ := exists_row hrows hb
    rw [hm.key.keyBytes_eq, hn.key.keyBytes_eq]
    exact keyLess_eq hm.key hn.key
  · rw [if_neg hsorted, if_neg hsorted]
    exact ⟨entries, members, rfl, hrows, rfl⟩

/-- The first loop makes the calls for what is no block, and gathers the blocks. -/
theorem iniEntriesLoop_rows (section_ : Bytes) (bytes : Nat)
    (hrows : List.Forall₂ (IniRow core r block) entries members) :
    ∃ more, List.Forall₂ (IniRow core r block) more
        (members.filter isBlock) ∧
      ∀ blocks, iniEntriesLoop core r block section_ bytes entries blocks = (do
        printIniPlain core section_ bytes (blocks ≠ []) members
        pure (blocks ++ more)) := by
  induction hrows with
  | nil =>
    refine ⟨[], .nil, fun blocks => ?_⟩
    rw [iniEntriesLoop, printIniPlain, List.append_nil, pure_bind]
  | @cons entry member entries members hrow _ ih =>
    obtain ⟨more, hmore, hloop⟩ := ih
    obtain ⟨key, value⟩ := member
    by_cases hblock : value.kind = .block
    · have htrue : isBlock (key, value) = true := decide_eq_true hblock
      refine ⟨entry :: more, ?_, fun blocks => ?_⟩
      · rw [List.filter_cons_of_pos htrue]
        exact .cons hrow hmore
      · have hgathered : decide (blocks ++ [entry] ≠ []) = true :=
          decide_eq_true (List.append_ne_nil_of_right_ne_nil _ (List.cons_ne_nil _ _))
        have hfirst : blocks = [] ↔ (!decide (blocks ≠ [])) = true := by simp
        rw [iniEntriesLoop, printIniPlain, hrow.kind]
        simp only [fromReader, pure_bind, hblock, if_true, hloop, hgathered, List.append_assoc,
          List.singleton_append, hfirst]
        by_cases hnone : (!decide (blocks ≠ [])) = true
        · rw [if_pos hnone, if_pos hnone, bind_assoc]
        · rw [if_neg hnone, if_neg hnone]
    · have hfalse : ¬isBlock (key, value) = true := fun h => hblock (of_decide_eq_true h)
      refine ⟨more, ?_, fun blocks => ?_⟩
      · rw [List.filter_cons_of_neg hfalse]
        exact hmore
      · rw [iniEntriesLoop, printIniPlain, hrow.kind]
        simp only [fromReader, pure_bind, hblock, if_false, hloop, hrow.emit, bind_assoc]

/-- The second loop makes the calls for the blocks. -/
theorem iniBlocksLoop_rows (section_ : Bytes)
    (hrows : List.Forall₂ (IniRow core r block) blocks
      (members.filter isBlock)) :
    iniBlocksLoop core r block section_ blocks = printIniBlocks core section_ members := by
  induction members generalizing blocks with
  | nil =>
    cases hrows
    rw [iniBlocksLoop, printIniBlocks]
  | cons m members ih =>
    obtain ⟨key, value⟩ := m
    rw [printIniBlocks]
    by_cases hblock : value.kind = .block
    · have htrue : isBlock (key, value) = true := decide_eq_true hblock
      rw [List.filter_cons_of_pos htrue] at hrows
      obtain ⟨entry, more, hrow, hmore, rfl⟩ := List.forall₂_cons_right_iff.mp hrows
      rw [if_pos hblock, iniBlocksLoop, hrow.emit, ih hmore]
    · have hfalse : ¬isBlock (key, value) = true := fun h => hblock (of_decide_eq_true h)
      rw [List.filter_cons_of_neg hfalse] at hrows
      rw [if_neg hblock, ih hrows]

/-- The same calls, for the entry of a member, as for the member with rearranged members. -/
def EmitsMember (core : Core σ) (options : Option ExportOptions) (r : Reader) (levels : Nat)
    (entry : IniSortEntry) (key : Bytes) (value : Value) : Prop :=
  ∃ value', Rearranged (exportOrder options) value value' ∧ ∀ section_,
    iniEmitEntry core r (iniEmitBlock core options r levels) section_ entry =
      printIniEntry core section_ key value'

/-- Entries of members are rows of rearranged members, in the order of the export. -/
theorem iniRows_of_holds (hsort : Sorts core.sortWithCompare) {levels : Nat} {start : UInt64}
    (hemits : ∀ (entry : IniSortEntry), ∀ m ∈ members,
      Holds hash64 r entry.valueOffset m.2 → KeyAt r entry.keyPoolOffset entry.keyLength m.1 →
        EmitsMember core options r levels entry m.1 m.2)
    (h : HoldsMembers hash64 r start members) :
    ∃ entries arranged mid out,
      copyEntries r iniSortEntryOf members.length start = .ok entries ∧
      iniArrangeEntries core options r entries = pure arranged ∧
      RearrangedMembers (exportOrder options) members mid ∧ exportOrder options mid out ∧
      List.Forall₂ (IniRow core r (iniEmitBlock core options r levels)) arranged out := by
  obtain ⟨raws, hcopy, hraws, -, -⟩ := copyEntries_holds iniSortEntryOf h
  have hchild : ∀ raw, ∀ m ∈ members, RawAt hash64 r raw m → ∃ value',
      Rearranged (exportOrder options) m.2 value' ∧
        IniRow core r (iniEmitBlock core options r levels) (iniSortEntryOf raw.1 raw.2)
          (m.1, value') := by
    intro raw m hm hraw
    have hkey := hraw.1.keyAt
    obtain ⟨value', hvalue, hemit⟩ := hemits (iniSortEntryOf raw.1 raw.2) m hm hraw.2 hkey
    exact ⟨value', hvalue, hkey, hvalue.kind_eq ▸ hraw.2.kindAt, hemit⟩
  obtain ⟨mid, hmid, hrows⟩ := rows_of_raws hraws hchild
  obtain ⟨arranged, out, harrange, hout, horder⟩ := iniArrangeEntries_rows hsort hrows
  exact ⟨_, arranged, mid, out, hcopy, harrange, hmid, horder, hout⟩

/-- On a file that holds a block, the exporter makes the calls for its members. -/
theorem iniEmitBlock_rows {levels : Nat} {section_ : Bytes} {offset start : UInt64}
    {header : BlockHeader} {arranged : List IniSortEntry}
    (hbody : blockBodyOffsets r offset = .ok (header, start))
    (hcopy : copyEntries r iniSortEntryOf header.childCount.toNat start = .ok entries)
    (harrange : iniArrangeEntries core options r entries = pure arranged)
    (hcount : header.childCount.toNat = members.length)
    (hrows : List.Forall₂ (IniRow core r (iniEmitBlock core options r levels)) arranged members) :
    iniEmitBlock core options r (levels + 1) section_ offset = (do
      if members.length ≠ 0 then scratchAlloc core (members.length * 24) fail
      if section_.length ≠ 0 then do
        iniWriteLiteral core [0x5B]
        iniWrite core section_
        iniWriteLiteral core [0x5D, 0x0A]
      printIniPlain core section_ (members.length * 24) false members
      if members.any isBlock then do
        iniWriteLiteral core [0x0A]
        printIniBlocks core section_ members) := by
  obtain ⟨more, hmore, hloop⟩ := iniEntriesLoop_rows section_ (members.length * 24) hrows
  have hblocks : more ≠ [] ↔ members.any isBlock = true := by
    rw [List.any_eq_true, ← List.length_pos_iff, hmore.length_eq, List.length_pos_iff_exists_mem]
    simp only [List.mem_filter]
  have htail : (do
      let blocks ← iniEntriesLoop core r (iniEmitBlock core options r levels) section_
        (members.length * 24) arranged []
      if blocks ≠ [] then do
        iniWriteLiteral core [0x0A]
        iniBlocksLoop core r (iniEmitBlock core options r levels) section_ blocks) = (do
      printIniPlain core section_ (members.length * 24) false members
      if members.any isBlock then do
        iniWriteLiteral core [0x0A]
        printIniBlocks core section_ members) := by
    have hnone : decide (([] : List IniSortEntry) ≠ []) = false := rfl
    simp only [hloop, bind_assoc, pure_bind, List.nil_append, hnone, hblocks,
      iniBlocksLoop_rows section_ hmore]
  rw [hcount] at hcopy
  rw [iniEmitBlock, hbody]
  by_cases hzero : members.length ≠ 0
  · simp only [fromReader, pure_bind, hcount, if_pos hzero, hcopy, harrange, htail]
  · obtain rfl := List.length_eq_zero_iff.mp (not_not.mp hzero)
    cases hrows
    cases hcopy
    simp only [fromReader, pure_bind, hcount, List.length_nil, copyEntries, ne_eq, not_true,
      if_false] at htail ⊢
    simp only [htail]

/-- On a file that holds a value, the exporter makes the calls for a member with the value,
with its members in the order of the export. -/
theorem iniEmitEntry_holds (hsort : Sorts core.sortWithCompare) {levels : Nat} :
    ∀ {value : Value} {entry : IniSortEntry} {key : Bytes}, value.depth ≤ levels →
      Holds hash64 r entry.valueOffset value → KeyAt r entry.keyPoolOffset entry.keyLength key →
        EmitsMember core options r levels entry key value := by
  induction levels with
  | zero =>
    intro value entry key hdepth
    cases value <;> cases hdepth
  | succ levels ih =>
    intro value entry key hdepth h hkey
    cases value with
    | scalar s =>
      rw [Holds] at h
      refine ⟨.scalar s, rfl, fun section_ => ?_⟩
      rw [iniEmitEntry, h.kindAt, printIniEntry, ← iniWriteScalarValue_scalar h,
        ← iniWriteKey_eq hkey]
      cases s with
      | bool value => cases value <;> rfl
      | _ => rfl
    | array elements =>
      rw [Holds] at h
      obtain ⟨hkind, header, start, hbody, hcount, helements⟩ := h
      rw [Value.depth] at hdepth
      -- an element that is a container ends the export, so the order below it is free
      obtain ⟨elements', hout⟩ := RearrangedElements.exists
        (exportOrder_exists hsort options) elements
      refine ⟨.array elements', ⟨elements', rfl, hout⟩, fun section_ => ?_⟩
      rw [iniEmitEntry, hkind, printIniEntry, printIniElements_rearranged hout]
      simp only [fromReader, pure_bind, hbody, hcount, iniElementsLoop_holds hkey helements]
    | block members =>
      rw [Holds] at h
      obtain ⟨hkind, header, start, hbody, hcount, hmembers⟩ := h
      rw [Value.depth] at hdepth
      have hemits : ∀ (entry : IniSortEntry), ∀ m ∈ members,
          Holds hash64 r entry.valueOffset m.2 →
            KeyAt r entry.keyPoolOffset entry.keyLength m.1 →
              EmitsMember core options r levels entry m.1 m.2 := by
        intro entry m hm
        have hle := le_membersDepth hm
        exact ih (by omega)
      -- the members are printed in the order of the options
      obtain ⟨entries, arranged, mid, out, hcopy, harrange, hmid, horder, hrows⟩ :=
        iniRows_of_holds hsort hemits hmembers
      have hlength : out.length = members.length := by
        rw [← (exportOrder.perm horder).length_eq, hmid.length_eq]
      refine ⟨.block out, ⟨mid, out, rfl, hmid, horder⟩, fun section_ => ?_⟩
      have hkeyEq : iniKey r entry = .ok key := by
        rw [iniKey, hkey.length_eq]
        exact loadBytes_eq hkey.load_eq
      rw [← hcount] at hcopy hlength
      rw [iniEmitEntry, hkind, printIniEntry]
      simp only [fromReader, pure_bind, hkey.length_eq, hkeyEq,
        iniEmitBlock_rows hbody hcopy harrange hlength.symm hrows]

/-! ## The root index -/

/-- The first loop, whatever is done with the blocks it has gathered. -/
theorem iniRootLoop_rows (bytes : Nat) {after : List IniSortEntry → ExportM σ Unit}
    {after' : List (Bytes × Value) → ExportM σ Unit}
    (hafter : ∀ {blocks blockMembers},
      List.Forall₂ (IniRow core r block) blocks blockMembers → after blocks = after' blockMembers)
    (hrows : List.Forall₂ (IniRow core r block) entries members) :
    ∀ {blocks blockMembers}, List.Forall₂ (IniRow core r block) blocks blockMembers →
      iniRootLoop core r block bytes entries blocks >>= after =
        printIniRootPlain core bytes members blockMembers >>= after' := by
  induction hrows with
  | nil =>
    intro blocks blockMembers hblocks
    rw [iniRootLoop, printIniRootPlain, pure_bind, pure_bind, hafter hblocks]
  | @cons entry member entries members hrow _ ih =>
    intro blocks blockMembers hblocks
    obtain ⟨key, value⟩ := member
    rw [iniRootLoop, printIniRootPlain, hrow.kind, bind_assoc, bind_assoc]
    refine bind_congr fun s => ?_
    by_cases hfailed : s.writeFailed = true
    · rw [if_pos hfailed, if_pos hfailed, pure_bind, pure_bind, hafter hblocks]
    · rw [if_neg hfailed, if_neg hfailed]
      by_cases hblock : value.kind = .block
      · -- a block waits, behind an array for those like it
        have hmore := List.rel_append hblocks (.cons hrow .nil)
        have hnone : blocks = [] ↔ blockMembers = [] := by
          rw [← List.length_eq_zero_iff, ← List.length_eq_zero_iff, hblocks.length_eq]
        have hnext : ∀ allocated : Bool,
            (if allocated then iniRootLoop core r block bytes entries (blocks ++ [entry])
              else breakFailed blocks) >>= after =
            (if allocated then printIniRootPlain core bytes members (blockMembers ++ [(key, value)])
              else breakFailed blockMembers) >>= after' := by
          intro allocated
          cases allocated with
          | true => exact ih hmore
          | false =>
            simp only [Bool.false_eq_true, if_false, breakFailed, bind_assoc, pure_bind,
              hafter hblocks]
        simp only [hblock, if_true, hnone]
        by_cases hempty : blockMembers = []
        · simp only [if_pos hempty, bind_assoc, hnext]
        · simp only [if_neg hempty, pure_bind]
          exact hnext true
      · simp only [hblock, if_false, hrow.emit, bind_assoc]
        refine bind_congr fun emitted => ?_
        cases emitted with
        | true => exact ih hblocks
        | false => simp only [Bool.false_eq_true, if_false, pure_bind, hafter hblocks]

/-- The second loop makes the calls for the blocks. -/
theorem iniRootBlocksLoop_rows (hrows : List.Forall₂ (IniRow core r block) blocks blockMembers) :
    iniRootBlocksLoop core r block blocks = printIniRootBlocks core blockMembers := by
  induction hrows with
  | nil => rw [iniRootBlocksLoop, printIniRootBlocks]
  | @cons entry member blocks members hrow _ ih =>
    obtain ⟨key, value⟩ := member
    rw [iniRootBlocksLoop, printIniRootBlocks, hrow.emit, ih]

/-- On a file that holds a document, the exporter makes the calls for the document with its
members in the order of the export. -/
theorem iniRoots_holds (hsort : Sorts core.sortWithCompare) {document : Document}
    (h : HoldsDocument hash64 r document) {levels : Nat}
    (hlevels : membersDepth document ≤ levels) :
    ∃ document' : Document, RearrangedDocument (exportOrder options) document document' ∧
      iniRoots core options r levels = printIniRoots core document' := by
  have hemits : ∀ (entry : IniSortEntry), ∀ m ∈ document, Holds hash64 r entry.valueOffset m.2 →
      KeyAt r entry.keyPoolOffset entry.keyLength m.1 →
        EmitsMember core options r levels entry m.1 m.2 := fun entry m hm =>
    iniEmitEntry_holds hsort ((le_membersDepth hm).trans hlevels)
  obtain ⟨entries, arranged, mid, out, hcopy, harrange, hmid, horder, hrows⟩ :=
    iniRows_of_holds hsort hemits h.members
  have hlength : out.length = document.length := by
    rw [← (exportOrder.perm horder).length_eq, hmid.length_eq]
  have hroom : (r.header.rootCount * 24).toNat = document.length * 24 :=
    h.toNat_count_mul (by decide)
  refine ⟨out, ⟨mid, hmid, horder⟩, ?_⟩
  rw [iniRoots, printIniRoots]
  simp only [h.count_eq_zero, h.count, hcopy, hroom, fromReader, pure_bind, harrange, hlength,
    iniRootLoop_rows (document.length * 24) iniRootBlocksLoop_rows hrows .nil]

end

end Hrbl
