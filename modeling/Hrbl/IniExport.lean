import Hrbl.IniLines
import Hrbl.JsonExport

/-!
# INI exports

When finite doubles are formatted, the INI exporter writes the lines of the document, as far as it
gets: it stops at a container in an array and at a call that is refused, with the mark of a
failure, and at nothing else.
-/

namespace Hrbl

open Lib Lib.Outcome

variable {σ : Type}

/-! ## What is called -/

/-- What the sink takes is put behind the output, and nothing else is; a finite `double` is
formatted. -/
structure Core.Appends (core : Core σ) (output : σ → Bytes) : Prop where
  writeBytes : ∀ data world world', core.writeBytes data world = (true, world') →
    output world' = output world ++ data
  allocate : ∀ bytes world, output (core.allocate bytes world).2 = output world
  formatSigned : ∀ value world, output (core.formatSigned 64 value world).2 = output world
  formatUnsigned : ∀ value world, output (core.formatUnsigned 64 value world).2 = output world
  formatHexadecimal : ∀ c : UInt8, ∀ world,
    output (core.formatHexadecimal 2 c.toUInt64 2 world).2 = output world
  formatDouble : ∀ bits, isNonFinite bits = false → ∀ world, ∃ text world',
    core.formatDouble 64 bits world = (some text, world') ∧ output world' = output world

/-- The sink takes everything, no allocation is refused, and the formatters succeed. -/
structure Core.Grants (core : Core σ) : Prop where
  writeBytes : ∀ data world, (core.writeBytes data world).1 = true
  allocate : ∀ bytes world, (core.allocate bytes world).1 = true
  formatSigned : ∀ value world, (core.formatSigned 64 value world).1 ≠ none
  formatUnsigned : ∀ value world, (core.formatUnsigned 64 value world).1 ≠ none
  formatHexadecimal : ∀ c : UInt8, c < 0x20 → ∀ world,
    (core.formatHexadecimal 2 c.toUInt64 2 world).1 ≠ none

/-! ## Texts -/

section

variable (core : Core σ)

/-- What a byte of a string is written as. -/
def IsIniByte (c : UInt8) (piece : Bytes) : Prop :=
  match iniEscape c with
  | some chunk => piece = chunk
  | none =>
    if c < 0x20 then ∃ digits world world',
      core.formatHexadecimal 2 c.toUInt64 2 world = (some digits, world') ∧
        piece = [0x5C, 0x78] ++ upperHex digits
    else piece = [c]

/-- What a scalar is written as: its own digits, its own bytes. -/
def IsIniValue : Scalar → Bytes → Prop
  | .null, text => text = []
  | .bool false, text => text = ascii ['f', 'a', 'l', 's', 'e']
  | .bool true, text => text = ascii ['t', 'r', 'u', 'e']
  | .int64 value, text => ∃ world world', core.formatSigned 64 value world = (some text, world')
  | .uint64 value, text =>
    ∃ world world', core.formatUnsigned 64 value world = (some text, world')
  | .float64 bits, text =>
    if isNonFinite bits then text = []
    else ∃ world world', core.formatDouble 64 bits world = (some text, world')
  | .string value, text => ∃ pieces : List Bytes, text = [0x22] ++ (pieces.flatten ++ [0x22]) ∧
      List.Forall₂ (IsIniByte core) value pieces

/-- What stands in a line, without the newline at its end. -/
def IsIniLine : IniLine → Bytes → Prop
  | .blank, text => text = []
  | .header name, text => text = [0x5B] ++ (name ++ [0x5D])
  | .record key value, text => ∃ written, IsIniValue core value written ∧
      text = key ++ ([0x20, 0x3D, 0x20] ++ written)
  | .element key value, text => ∃ written, IsIniValue core value written ∧
      text = key ++ ([0x5B, 0x5D, 0x3D] ++ written)

/-- Lines, each with a newline at its end. -/
def AreIniLines (lines : List IniLine) (text : Bytes) : Prop :=
  ∃ texts : List Bytes, List.Forall₂ (IsIniLine core) lines texts ∧
    text = texts.flatMap fun line => line ++ [0x0A]

end

section

variable {core : Core σ}

theorem AreIniLines.nil : AreIniLines core [] [] := ⟨[], .nil, rfl⟩

theorem AreIniLines.single {line : IniLine} {text : Bytes} (h : IsIniLine core line text) :
    AreIniLines core [line] (text ++ [0x0A]) :=
  ⟨[text], .cons h .nil, (List.append_nil _).symm⟩

theorem AreIniLines.append {lines lines' : List IniLine} {text text' : Bytes}
    (h : AreIniLines core lines text) (h' : AreIniLines core lines' text') :
    AreIniLines core (lines ++ lines') (text ++ text') := by
  obtain ⟨texts, hlines, rfl⟩ := h
  obtain ⟨texts', hlines', rfl⟩ := h'
  exact ⟨texts ++ texts', List.rel_append hlines hlines', List.flatMap_append.symm⟩

end

/-! ## Scalars -/

/-- The export goes on and puts such a text behind the output, or it is marked as failed where
this is the case. -/
abbrev WritesUnless (output : σ → Bytes) (bad : Prop) {α : Type} (m : ExportM σ α)
    (Q : α → Bytes → Prop) : Prop :=
  OutputsUnless (fun s => s.writeFailed = false) (fun s => output s.world) .failed
    (fun s => s.writeFailed = true) bad m Q

namespace WritesUnless

variable {core : Core σ} {output : σ → Bytes} {bad : Prop}

theorem exportWriteAll (h : core.Appends output) (hbad : ¬core.Grants → bad) (data : Bytes) :
    WritesUnless output bad (exportWriteAll core data) fun _ text => text = data := by
  intro s hs
  have hstart : Hrbl.exportWriteAll core data s =
      (if data.length = 0 then Pure.pure () else do
        let written ← callCore (core.writeBytes data)
        if written then Pure.pure () else fail : ExportM σ Unit) s := by
    change (if s.writeFailed = true then _ else _ : ExportM σ Unit) s = _
    rw [if_neg (by rw [hs]; exact Bool.false_ne_true)]
  by_cases hempty : data.length = 0
  · refine .inl ⟨(), [], s, ?_, hs, (List.append_nil _).symm,
      (List.length_eq_zero_iff.mp hempty).symm⟩
    rw [hstart, if_pos hempty]
    rfl
  · have hcall : Hrbl.exportWriteAll core data s =
        (if (core.writeBytes data s.world).1 = true then Pure.pure () else fail : ExportM σ Unit)
          { s with world := (core.writeBytes data s.world).2 } := by
      rw [hstart, if_neg hempty]
      rfl
    rw [hcall]
    cases hwritten : (core.writeBytes data s.world).1 with
    | true =>
      refine .inl ⟨(), data, _, rfl, hs, ?_, rfl⟩
      exact h.writeBytes data s.world _ (Prod.ext hwritten rfl)
    | false =>
      refine .inr ⟨hbad fun hgrants => ?_, _, rfl, rfl⟩
      rw [hgrants.writeBytes] at hwritten
      cases hwritten

theorem formatted {call : σ → Option Bytes × σ}
    (hcall : ∀ world, output (call world).2 = output world)
    (hbad : ∀ world, (call world).1 = none → bad) :
    WritesUnless output bad (formatted call) fun digits text => text = [] ∧
      ∃ world world', call world = (some digits, world') := by
  intro s hs
  have hrun : Hrbl.formatted call s = ((match (call s.world).1 with
      | some bytes => Pure.pure bytes
      | none => fail) : ExportM σ Bytes) { s with world := (call s.world).2 } := rfl
  rw [hrun]
  cases hresult : (call s.world).1 with
  | some bytes =>
    refine .inl ⟨bytes, [], _, rfl, hs, ?_, rfl, s.world, _, Prod.ext hresult rfl⟩
    rw [List.append_nil]
    exact hcall s.world
  | none => exact .inr ⟨hbad s.world hresult, _, rfl, rfl⟩

theorem iniWriteByte (h : core.Appends output) (hbad : ¬core.Grants → bad) (c : UInt8) :
    WritesUnless output bad (iniWriteByte core c) fun _ text => IsIniByte core c text := by
  rw [Hrbl.iniWriteByte]
  cases hescape : iniEscape c with
  | some chunk =>
    refine (exportWriteAll h hbad chunk).mono id fun _ text htext => ?_
    rw [IsIniByte, hescape]
    exact htext
  | none =>
    refine OutputsUnless.ite (fun hcontrol => ?_) fun hplain => ?_
    · have hrefused : ∀ world, (core.formatHexadecimal 2 c.toUInt64 2 world).1 = none → bad :=
        fun world hnone => hbad fun hgrants => hgrants.formatHexadecimal c hcontrol world hnone
      refine (formatted (h.formatHexadecimal c) hrefused).bind fun digits none hdigits => ?_
      obtain ⟨rfl, world, world', hrun⟩ := hdigits
      refine (exportWriteAll h hbad _).bind fun _ mark hmark => ?_
      refine (exportWriteAll h hbad _).mono id fun _ text htext => ?_
      subst hmark
      subst htext
      rw [IsIniByte, hescape]
      dsimp only
      rw [if_pos hcontrol]
      exact ⟨digits, world, world', hrun, rfl⟩
    · refine (exportWriteAll h hbad _).mono id fun _ text htext => ?_
      rw [IsIniByte, hescape]
      dsimp only
      rw [if_neg hplain]
      exact htext

/-- The loop over a string, from any index on. -/
theorem iniEscapedLoop (h : core.Appends output) (hbad : ¬core.Grants → bad) (s : Bytes)
    (i : Nat) : WritesUnless output bad (iniEscapedLoop core s s.length i) fun _ text =>
      ∃ pieces : List Bytes, text = pieces.flatten ∧
        List.Forall₂ (IsIniByte core) (s.drop i) pieces := by
  fun_induction Hrbl.iniEscapedLoop core s s.length i with
  | case1 i hi hnone =>
    rw [List.getElem?_eq_none_iff] at hnone
    omega
  | case2 i hi c hsome ih =>
    refine (iniWriteByte h hbad c).bind fun _ piece hpiece => ih.mono id fun _ rest hrest => ?_
    obtain ⟨pieces, rfl, hpieces⟩ := hrest
    refine ⟨piece :: pieces, rfl, ?_⟩
    obtain ⟨hlt, hget⟩ := List.getElem?_eq_some_iff.mp hsome
    rw [List.drop_eq_getElem_cons hlt, hget]
    exact .cons hpiece hpieces
  | case3 i hi =>
    rw [List.drop_eq_nil_of_le (Nat.not_lt.mp hi)]
    exact OutputsUnless.pure ⟨[], rfl, .nil⟩

/-- A `double` is written, whatever it is. -/
theorem iniWriteFloat (h : core.Appends output) (hbad : ¬core.Grants → bad) (bits : UInt64) :
    WritesUnless output bad (iniWriteFloat core bits) fun _ text =>
      IsIniValue core (.float64 bits) text := by
  refine OutputsUnless.ite (fun hnonfinite => ?_) fun hfinite => ?_
  · refine (exportWriteAll h hbad _).mono id fun _ text htext => ?_
    rw [IsIniValue, if_pos hnonfinite]
    exact htext
  · have hcall : ∀ world, ∃ a world', core.formatDouble 64 bits world = (a, world') ∧
        output world' = output world ∧ ∃ text, a = some text ∧
          ∃ world world', core.formatDouble 64 bits world = (some text, world') := by
      intro world
      obtain ⟨text, world', hrun, houtput⟩ :=
        h.formatDouble bits (Bool.eq_false_iff.mpr hfinite) world
      exact ⟨_, world', hrun, houtput, text, rfl, world, world', hrun⟩
    refine ((Writes.callCore hcall).unless bad).bind fun a none ha => ?_
    obtain ⟨rfl, digits, rfl, hrun⟩ := ha
    refine (exportWriteAll h hbad _).mono id fun _ text htext => ?_
    rw [IsIniValue, if_neg hfinite]
    exact htext ▸ hrun

/-- A scalar is written, whatever it is. -/
theorem printIniScalar (h : core.Appends output) (hbad : ¬core.Grants → bad) (s : Scalar) :
    WritesUnless output bad (printIniScalar core s) fun _ text => IsIniValue core s text := by
  have hwrite := exportWriteAll h hbad
  cases s with
  | null => exact hwrite _
  | bool value =>
    cases value with
    | false => exact hwrite _
    | true => exact hwrite _
  | int64 value =>
    refine (formatted (h.formatSigned value) fun world hnone => hbad fun hgrants =>
      hgrants.formatSigned value world hnone).bind fun digits none hdigits => ?_
    obtain ⟨rfl, hrun⟩ := hdigits
    exact (hwrite _).mono id fun _ text htext => htext ▸ hrun
  | uint64 value =>
    refine (formatted (h.formatUnsigned value) fun world hnone => hbad fun hgrants =>
      hgrants.formatUnsigned value world hnone).bind fun digits none hdigits => ?_
    obtain ⟨rfl, hrun⟩ := hdigits
    exact (hwrite _).mono id fun _ text htext => htext ▸ hrun
  | float64 bits => exact iniWriteFloat h hbad bits
  | string value =>
    refine (hwrite _).bind fun _ opening hopening => (iniEscapedLoop h hbad value 0).bind
      fun _ body hbody => (hwrite _).mono id fun _ closing hclosing => ?_
    obtain ⟨pieces, rfl, hpieces⟩ := hbody
    subst hopening
    subst hclosing
    exact ⟨pieces, rfl, hpieces⟩

end WritesUnless

/-! ## Members -/

/-- What stops the export of values: a container in an array, or a call. -/
def Refuses (core : Core σ) (flat : Bool) : Prop := ¬(flat = true ∧ core.Grants)

theorem Refuses.mono {core : Core σ} {flat flat' : Bool} (h : flat' = true → flat = true)
    (hrefuses : Refuses core flat) : Refuses core flat' :=
  fun ⟨hflat, hgrants⟩ => hrefuses ⟨h hflat, hgrants⟩

namespace WritesUnless

variable {core : Core σ} {output : σ → Bytes}

theorem scratchAlloc (h : core.Appends output) {bad : Prop} (hbad : ¬core.Grants → bad)
    (bytes : Nat) : WritesUnless output bad (scratchAlloc core bytes fail) fun _ text => text = [] := by
  intro s hs
  have hrun : Hrbl.scratchAlloc core bytes fail s =
      (if (core.allocate bytes s.world).1 = true then (Pure.pure () : ExportM σ Unit) else fail)
        { s with world := (core.allocate bytes s.world).2 } := rfl
  rw [hrun]
  cases hallocated : (core.allocate bytes s.world).1 with
  | true =>
    refine .inl ⟨(), [], _, rfl, hs, ?_, rfl⟩
    rw [List.append_nil]
    exact h.allocate bytes s.world
  | false =>
    refine .inr ⟨hbad fun hgrants => ?_, _, rfl, rfl⟩
    rw [hgrants.allocate bytes s.world] at hallocated
    cases hallocated

/-- The line of a scalar, with this between its key and its value. -/
theorem valueLine (h : core.Appends output) {bad : Prop} (hbad : ¬core.Grants → bad)
    (key mark : Bytes) (s : Scalar) {m : ExportM σ Unit} {Q : Bytes → Prop}
    (hm : WritesUnless output bad m fun _ text => Q text) :
    WritesUnless output bad (do
      iniWrite core key
      iniWriteLiteral core mark
      Hrbl.printIniScalar core s
      iniWriteLiteral core [0x0A]
      m) fun _ text => ∃ written rest, text = (key ++ (mark ++ written)) ++ [0x0A] ++ rest ∧
        IsIniValue core s written ∧ Q rest := by
  refine (exportWriteAll h hbad key).bind fun _ first hfirst => ?_
  refine (exportWriteAll h hbad mark).bind fun _ second hsecond => ?_
  refine (printIniScalar h hbad s).bind fun _ written hwritten => ?_
  refine (exportWriteAll h hbad [0x0A]).bind fun _ last hlast => ?_
  refine hm.mono id fun _ rest hrest => ?_
  subst hfirst
  subst hsecond
  subst hlast
  exact ⟨written, rest, by simp only [List.append_assoc], hwritten, hrest⟩

/-- The elements of an array are written when they are all scalars. -/
theorem printIniElements (h : core.Appends output) (key : Bytes) (elements : List Value) :
    WritesUnless output (Refuses core (Value.array elements).flat)
      (printIniElements core key elements) fun _ text =>
        (Value.array elements).flat = true ∧ AreIniLines core (elementLines key elements) text := by
  induction elements with
  | nil => exact OutputsUnless.pure ⟨rfl, .nil⟩
  | cons value elements ih =>
    cases value with
    | scalar s =>
      refine (valueLine h (fun hnot hflat => hnot hflat.2) key _ s ih).mono id fun _ text htext => ?_
      obtain ⟨written, rest, rfl, hwritten, hflat, hlines⟩ := htext
      have hline : AreIniLines core [.element key s]
          ((key ++ ([0x5B, 0x5D, 0x3D] ++ written)) ++ [0x0A]) := .single ⟨written, hwritten, rfl⟩
      exact ⟨hflat, hline.append hlines⟩
    | block members => exact fun s hs => .inr ⟨fun hflat => (by cases hflat.1), _, rfl, rfl⟩
    | array inner => exact fun s hs => .inr ⟨fun hflat => (by cases hflat.1), _, rfl, rfl⟩

/-- The header of a section that has a name. -/
theorem header (h : core.Appends output) {bad : Prop} (hbad : ¬core.Grants → bad)
    (name : Bytes) {m : ExportM σ Unit} {Q : Bytes → Prop} (hm : WritesUnless output bad m fun _ text => Q text) :
    WritesUnless output bad (if name.length ≠ 0 then do
        iniWriteLiteral core [0x5B]
        iniWrite core name
        iniWriteLiteral core [0x5D, 0x0A]
        m
      else m) fun _ text => ∃ first rest, text = first ++ rest ∧
        AreIniLines core (headerLines name) first ∧ Q rest := by
  refine OutputsUnless.ite (fun hname => ?_) fun hname => ?_
  · refine (exportWriteAll h hbad [0x5B]).bind fun _ opening hopening => ?_
    refine (exportWriteAll h hbad name).bind fun _ text htext => ?_
    refine (exportWriteAll h hbad [0x5D, 0x0A]).bind fun _ closing hclosing => ?_
    refine hm.mono id fun _ rest hrest => ?_
    subst hopening
    subst htext
    subst hclosing
    refine ⟨[0x5B] ++ (text ++ [0x5D]) ++ [0x0A], rest, by simp, ?_, hrest⟩
    rw [headerLines, if_pos hname]
    exact .single rfl
  · refine hm.mono id fun _ rest hrest => ⟨[], rest, rfl, ?_, hrest⟩
    rw [headerLines, if_neg hname]
    exact .nil

theorem membersFlat_cons {member : Bytes × Value} {members : List (Bytes × Value)} :
    membersFlat (member :: members) = true ↔ member.2.flat = true ∧ membersFlat members = true := by
  rw [membersFlat_eq, membersFlat_eq, List.all_cons, Bool.and_eq_true]

/-- The values of the members of this kind have no container in an array. -/
def KindFlat (block : Bool) (members : List (Bytes × Value)) : Prop :=
  ∀ member ∈ members, isBlock member = block → member.2.flat = true

theorem membersFlat_of_kinds {members : List (Bytes × Value)} (hplain : KindFlat false members)
    (hblocks : KindFlat true members) : membersFlat members = true := by
  rw [membersFlat_eq, List.all_eq_true]
  intro member hmember
  cases hkind : isBlock member with
  | false => exact hplain member hmember hkind
  | true => exact hblocks member hmember hkind

/-- The body of a block: its header, its values, and then its blocks. -/
theorem blockBody (h : core.Appends output) {bad : Prop} (hbad : ¬core.Grants → bad)
    (name : Bytes) {members : List (Bytes × Value)} {plain blocks : ExportM σ Unit}
    (hplain : WritesUnless output bad plain fun _ text =>
      KindFlat false members ∧ AreIniLines core (plainLines members) text)
    (hblocks : WritesUnless output bad blocks fun _ text =>
      KindFlat true members ∧ AreIniLines core (nestedLines name members) text) :
    WritesUnless output bad (do
      if name.length ≠ 0 then do
        iniWriteLiteral core [0x5B]
        iniWrite core name
        iniWriteLiteral core [0x5D, 0x0A]
      plain
      if members.any isBlock then do
        iniWriteLiteral core [0x0A]
        blocks) fun _ text => membersFlat members = true ∧
          AreIniLines core (blockLines name (.block members)) text := by
  have hrest : WritesUnless output bad (do
      plain
      if members.any isBlock then do
        iniWriteLiteral core [0x0A]
        blocks) fun _ text => membersFlat members = true ∧ AreIniLines core (plainLines members ++
          if members.any isBlock then .blank :: nestedLines name members else []) text := by
    refine hplain.bind fun _ text htext => ?_
    refine OutputsUnless.ite (fun hany => ?_) fun hnone => ?_
    · refine (exportWriteAll h hbad [0x0A]).bind fun _ newline hnewline => ?_
      refine hblocks.mono id fun _ rest hrest => ?_
      subst hnewline
      refine ⟨membersFlat_of_kinds htext.1 hrest.1, ?_⟩
      rw [if_pos hany]
      have hblank : AreIniLines core [.blank] ([] ++ [0x0A]) := .single rfl
      exact htext.2.append (hblank.append hrest.2)
    · -- without blocks, nothing is left
      refine OutputsUnless.pure ⟨membersFlat_of_kinds htext.1 fun member hmember hblock => ?_, ?_⟩
      · exact absurd (List.any_eq_true.mpr ⟨member, hmember, hblock⟩) hnone
      · rw [if_neg hnone]
        exact htext.2.append .nil
  refine (header h hbad name hrest).mono id fun _ text htext => ?_
  obtain ⟨first, rest, rfl, hfirst, hflat, hlines⟩ := htext
  rw [blockLines]
  exact ⟨hflat, hfirst.append hlines⟩

mutual

/-- A member in the block of a section is written as its lines. -/
theorem printIniEntry (h : core.Appends output) : ∀ (value : Value) (section_ key : Bytes),
    WritesUnless output (Refuses core value.flat) (printIniEntry core section_ key value)
      fun _ text => value.flat = true ∧ AreIniLines core
        (memberLines (key, value) ++ blockLines (newSection section_ key) value) text
  | .scalar s, section_, key => by
    rw [Hrbl.printIniEntry]
    have hend : WritesUnless output (Refuses core true) (Pure.pure () : ExportM σ Unit)
        fun _ text => text = [] := OutputsUnless.pure rfl
    have hrefuses : ¬core.Grants → Refuses core true := fun hnot hflat => hnot hflat.2
    have hline := valueLine h hrefuses key [0x20, 0x3D, 0x20] s hend
    simp only [bind_pure_unit] at hline
    refine hline.mono id fun _ text htext => ?_
    obtain ⟨written, rest, rfl, hwritten, rfl⟩ := htext
    have hsingle : AreIniLines core [.record key s]
        ((key ++ ([0x20, 0x3D, 0x20] ++ written)) ++ [0x0A]) := .single ⟨written, hwritten, rfl⟩
    exact ⟨rfl, hsingle.append .nil⟩
  | .array elements, section_, key => by
    rw [Hrbl.printIniEntry]
    refine (printIniElements h key elements).mono id fun _ text htext => ⟨htext.1, ?_⟩
    rw [blockLines, List.append_nil]
    exact htext.2
  | .block members, section_, key => by
    rw [Hrbl.printIniEntry]
    have hgrants : ¬core.Grants → Refuses core (Value.block members).flat :=
      fun hnot hflat => hnot hflat.2
    have hbody := blockBody h hgrants (newSection section_ key)
      (printIniPlain h members (newSection section_ key) (members.length * 24) false)
      (printIniBlocks h members (newSection section_ key))
    refine (scratchAlloc h hgrants _).bind fun _ none hnone => ?_
    subst hnone
    refine OutputsUnless.ite (fun _ => ?_) fun _ => hbody
    refine (scratchAlloc h hgrants _).bind fun _ none hnone => ?_
    subst hnone
    exact hbody

/-- The members that are no blocks are written as their lines. -/
theorem printIniPlain (h : core.Appends output) : ∀ (members : List (Bytes × Value))
    (section_ : Bytes) (bytes : Nat) (gathered : Bool),
    WritesUnless output (Refuses core (membersFlat members))
      (printIniPlain core section_ bytes gathered members) fun _ text =>
        KindFlat false members ∧ AreIniLines core (plainLines members) text
  | [], section_, bytes, gathered => by
    rw [Hrbl.printIniPlain]
    exact OutputsUnless.pure ⟨fun _ hmember => absurd hmember List.not_mem_nil, .nil⟩
  | (key, value) :: members, section_, bytes, gathered => by
    rw [Hrbl.printIniPlain]
    have hrest := fun gathered => printIniPlain h members section_ bytes gathered
    have hbad : Refuses core (membersFlat members) →
        Refuses core (membersFlat ((key, value) :: members)) :=
      Refuses.mono fun hflat => (membersFlat_cons.mp hflat).2
    refine OutputsUnless.ite (fun hblock => ?_) fun hplain => ?_
    · have hkind : isBlock (key, value) = true := decide_eq_true hblock
      have hnext : ∀ text, KindFlat false members ∧ AreIniLines core (plainLines members) text →
          KindFlat false ((key, value) :: members) ∧
            AreIniLines core (plainLines ((key, value) :: members)) text := by
        rintro text ⟨hflat, hlines⟩
        refine ⟨List.forall_mem_cons.mpr ⟨fun hnot => ?_, hflat⟩, ?_⟩
        · rw [hkind] at hnot
          cases hnot
        · cases value with
          | block inner => exact hlines
          | scalar s =>
            rw [isBlock_scalar] at hkind
            cases hkind
          | array elements => cases hkind
      refine OutputsUnless.ite (fun _ => ?_) fun _ =>
        (hrest true).mono hbad fun _ text htext => hnext text htext
      refine (scratchAlloc h (fun hnot hflat => hnot hflat.2) _).bind fun _ none hnone => ?_
      subst hnone
      exact (hrest true).mono hbad fun _ text htext => hnext text htext
    · have hkind : isBlock (key, value) = false := decide_eq_false hplain
      have hentry : Refuses core value.flat → Refuses core (membersFlat ((key, value) :: members)) :=
        Refuses.mono fun hflat => (membersFlat_cons.mp hflat).1
      refine ((printIniEntry h value section_ key).mono hentry fun _ _ => id).bind
        fun _ text htext => ((hrest gathered).mono hbad fun _ _ => id).mono id fun _ rest hrest => ?_
      refine ⟨List.forall_mem_cons.mpr ⟨fun _ => htext.1, hrest.1⟩, ?_⟩
      have hnone : blockLines (newSection section_ key) value = [] := by
        cases value with
        | block inner => cases hkind
        | scalar s => rfl
        | array elements => rfl
      rw [hnone, List.append_nil] at htext
      exact htext.2.append hrest.2

/-- The members that are blocks are written as their sections. -/
theorem printIniBlocks (h : core.Appends output) : ∀ (members : List (Bytes × Value))
    (section_ : Bytes),
    WritesUnless output (Refuses core (membersFlat members)) (printIniBlocks core section_ members)
      fun _ text => KindFlat true members ∧ AreIniLines core (nestedLines section_ members) text
  | [], section_ => by
    rw [Hrbl.printIniBlocks]
    exact OutputsUnless.pure ⟨fun _ hmember => absurd hmember List.not_mem_nil, .nil⟩
  | (key, value) :: members, section_ => by
    rw [Hrbl.printIniBlocks]
    have hbad : Refuses core (membersFlat members) →
        Refuses core (membersFlat ((key, value) :: members)) :=
      Refuses.mono fun hflat => (membersFlat_cons.mp hflat).2
    have hrest := (printIniBlocks h members section_).mono hbad fun _ _ => id
    refine OutputsUnless.ite (fun hblock => ?_) fun hplain => ?_
    · have hentry : Refuses core value.flat → Refuses core (membersFlat ((key, value) :: members)) :=
        Refuses.mono fun hflat => (membersFlat_cons.mp hflat).1
      refine ((printIniEntry h value section_ key).mono hentry fun _ _ => id).bind
        fun _ text htext => hrest.mono id fun _ rest hrest => ?_
      refine ⟨List.forall_mem_cons.mpr ⟨fun _ => htext.1, hrest.1⟩, ?_⟩
      have hnone : memberLines (key, value) = [] := by
        cases value with
        | block inner => rfl
        | scalar s =>
          have hscalar := isBlock_scalar key s
          rw [isBlock, decide_eq_false_iff_not] at hscalar
          exact absurd hblock hscalar
        | array elements => cases hblock
      rw [hnone, List.nil_append] at htext
      exact htext.2.append hrest.2
    · have hkind : isBlock (key, value) = false := decide_eq_false hplain
      refine hrest.mono id fun _ text htext => ⟨List.forall_mem_cons.mpr ⟨fun hblock => ?_, htext.1⟩, ?_⟩
      · rw [hkind] at hblock
        cases hblock
      · have hnone : blockLines (newSection section_ key) value = [] := by
          cases value with
          | block inner => cases hkind
          | scalar s => rfl
          | array elements => rfl
        rw [nestedLines, hnone]
        exact htext.2

end

end WritesUnless

/-! ## The root -/

/-- The same of the loops at the root, which return where an entry has failed. -/
def WritesOrMarks (output : σ → Bytes) (bad : Prop) {α : Type} (m : ExportM σ α)
    (Q : α → Bytes → Prop) : Prop :=
  ∀ s, s.writeFailed = false →
    (∃ a text s', m s = .ok a s' ∧ s'.writeFailed = false ∧
      output s'.world = output s.world ++ text ∧ Q a text) ∨
    bad ∧ ∃ a s', m s = .ok a s' ∧ s'.writeFailed = true

namespace WritesOrMarks

variable {core : Core σ} {output : σ → Bytes}

theorem pure {α : Type} {a : α} {bad : Prop} {Q : α → Bytes → Prop} (h : Q a []) :
    WritesOrMarks output bad (pure a : ExportM σ α) Q :=
  fun s hs => .inl ⟨a, [], s, rfl, hs, (List.append_nil _).symm, h⟩

/-- An entry at the root, and what is done behind it. -/
theorem attempt {α : Type} {m : ExportM σ Unit} {next : ExportM σ α} {a : α} {bad : Prop}
    {P : Bytes → Prop} {Q : α → Bytes → Prop} (hm : WritesUnless output bad m fun _ text => P text)
    (hnext : ∀ text, P text → WritesOrMarks output bad next fun a rest => Q a (text ++ rest)) :
    WritesOrMarks output bad (do
      let emitted ← attempt m
      if emitted then next else Pure.pure a) Q := by
  intro s hs
  have hrun : (do
      let emitted ← Hrbl.attempt m
      if emitted then next else Pure.pure a : ExportM σ α) s =
      EStateM.bind (Hrbl.attempt m) (fun emitted => if emitted then next else Pure.pure a) s := rfl
  rw [hrun, EStateM.bind, Hrbl.attempt]
  rcases hm s hs with ⟨_, text, s₁, hok, hready, houtput, hP⟩ | ⟨hbad, s₁, hfailed, hmarked⟩
  · dsimp only at houtput
    rw [hok]
    dsimp only
    rw [if_pos rfl]
    rcases hnext text hP s₁ hready with ⟨a, rest, s₂, hok', hready', houtput', hQ⟩ | hmarked
    · refine .inl ⟨a, text ++ rest, s₂, hok', hready', ?_, hQ⟩
      rw [houtput', houtput, List.append_assoc]
    · exact .inr hmarked
  · rw [hfailed]
    exact .inr ⟨hbad, a, s₁, rfl, hmarked⟩

/-- The check of the mark before an entry at the root. -/
theorem unfailed {α : Type} {m : ExportM σ α} {a : α} {bad : Prop} {Q : α → Bytes → Prop}
    (hm : WritesOrMarks output bad m Q) : WritesOrMarks output bad (do
      let s ← get
      if s.writeFailed then Pure.pure a else m) Q := by
  intro s hs
  have hrun : (do
      let s ← get
      if s.writeFailed then Pure.pure a else m : ExportM σ α) s =
      (if s.writeFailed = true then Pure.pure a else m : ExportM σ α) s := rfl
  rw [hrun, if_neg (by rw [hs]; exact Bool.false_ne_true)]
  exact hm s hs

/-- The array for the blocks, and what is done behind it. -/
theorem gather {α : Type} (h : core.Appends output) {blocks : List (Bytes × Value)} (bytes : Nat)
    {next failed : ExportM σ α} {bad : Prop} {Q : α → Bytes → Prop} (hbad : ¬core.Grants → bad)
    (hnext : WritesOrMarks output bad next Q)
    (hfailed : ∀ s, ∃ a s', failed s = .ok a s' ∧ s'.writeFailed = true) :
    WritesOrMarks output bad (do
      let allocated ← if blocks = [] then callCore (core.allocate bytes) else Pure.pure true
      if allocated then next else failed) Q := by
  intro s hs
  by_cases hnone : blocks = []
  · have hrun : (do
        let allocated ← if blocks = [] then callCore (core.allocate bytes) else Pure.pure true
        if allocated then next else failed : ExportM σ α) s =
        (if (core.allocate bytes s.world).1 = true then next else failed)
          { s with world := (core.allocate bytes s.world).2 } := by
      rw [if_pos hnone]
      rfl
    rw [hrun]
    cases hallocated : (core.allocate bytes s.world).1 with
    | true =>
      have hgo := hnext { s with world := (core.allocate bytes s.world).2 } hs
      rw [h.allocate bytes s.world] at hgo
      exact hgo
    | false =>
      refine .inr ⟨hbad fun hgrants => ?_, hfailed _⟩
      rw [hgrants.allocate bytes s.world] at hallocated
      cases hallocated
  · have hrun : (do
        let allocated ← if blocks = [] then callCore (core.allocate bytes) else Pure.pure true
        if allocated then next else failed : ExportM σ α) s = next s := by
      rw [if_neg hnone]
      rfl
    rw [hrun]
    exact hnext s hs

theorem mono {α : Type} {m : ExportM σ α} {bad bad' : Prop} {Q Q' : α → Bytes → Prop}
    (hm : WritesOrMarks output bad m Q) (hbad : bad → bad') (h : ∀ a text, Q a text → Q' a text) :
    WritesOrMarks output bad' m Q' := by
  intro s hs
  rcases hm s hs with ⟨a, text, s', hrun, hready, houtput, hQ⟩ | ⟨hstopped, hrun⟩
  · exact .inl ⟨a, text, s', hrun, hready, houtput, h a text hQ⟩
  · exact .inr ⟨hbad hstopped, hrun⟩

/-- The first loop at the root writes what is no block, and gathers the blocks. -/
theorem printIniRootPlain (h : core.Appends output) (bytes : Nat)
    (members blocks : List (Bytes × Value)) :
    WritesOrMarks output (Refuses core (membersFlat members))
      (printIniRootPlain core bytes members blocks) fun gathered text =>
        gathered = blocks ++ members.filter isBlock ∧ WritesUnless.KindFlat false members ∧
          AreIniLines core (plainLines members) text := by
  induction members generalizing blocks with
  | nil =>
    exact pure ⟨(List.append_nil _).symm, fun _ hmember => absurd hmember List.not_mem_nil, .nil⟩
  | cons member members ih =>
    obtain ⟨key, value⟩ := member
    have hbad : Refuses core (membersFlat members) →
        Refuses core (membersFlat ((key, value) :: members)) :=
      Refuses.mono fun hflat => (WritesUnless.membersFlat_cons.mp hflat).2
    rw [Hrbl.printIniRootPlain]
    refine unfailed ?_
    by_cases hblock : value.kind = .block
    · have hkind : isBlock (key, value) = true := decide_eq_true hblock
      rw [if_pos hblock]
      refine gather h bytes (fun hnot hflat => hnot hflat.2) ?_ fun s => ⟨_, _, rfl, rfl⟩
      refine (ih (blocks ++ [(key, value)])).mono hbad fun gathered text htext => ?_
      obtain ⟨hgathered, hflat, hlines⟩ := htext
      refine ⟨?_, List.forall_mem_cons.mpr ⟨fun hnot => ?_, hflat⟩, ?_⟩
      · rw [hgathered, List.filter_cons_of_pos hkind, List.append_assoc, List.singleton_append]
      · rw [hkind] at hnot
        cases hnot
      · cases value with
        | block inner => exact hlines
        | scalar s =>
          rw [isBlock_scalar] at hkind
          cases hkind
        | array elements => cases hkind
    · have hkind : isBlock (key, value) = false := decide_eq_false hblock
      have hentry : Refuses core value.flat →
          Refuses core (membersFlat ((key, value) :: members)) :=
        Refuses.mono fun hflat => (WritesUnless.membersFlat_cons.mp hflat).1
      rw [if_neg hblock]
      refine attempt ((WritesUnless.printIniEntry h value [] key).mono hentry fun _ _ => id)
        fun text htext => (ih blocks).mono hbad fun gathered rest hrest => ?_
      obtain ⟨hgathered, hflat, hlines⟩ := hrest
      have hnone : blockLines (newSection [] key) value = [] := by
        cases value with
        | block inner => cases hkind
        | scalar s => rfl
        | array elements => rfl
      rw [hnone, List.append_nil] at htext
      refine ⟨?_, List.forall_mem_cons.mpr ⟨fun _ => htext.1, hflat⟩, htext.2.append hlines⟩
      rw [hgathered, List.filter_cons_of_neg (by rw [hkind]; exact Bool.false_ne_true)]

/-- The second loop at the root writes the blocks. -/
theorem printIniRootBlocks (h : core.Appends output) {blocks : List (Bytes × Value)}
    (hblocks : ∀ member ∈ blocks, isBlock member = true) :
    WritesOrMarks output (Refuses core (membersFlat blocks)) (printIniRootBlocks core blocks)
      fun _ text => membersFlat blocks = true ∧ AreIniLines core (nestedLines [] blocks) text := by
  induction blocks with
  | nil => exact pure ⟨rfl, .nil⟩
  | cons member blocks ih =>
    obtain ⟨key, value⟩ := member
    obtain ⟨hkind, hrest⟩ := List.forall_mem_cons.mp hblocks
    have hentry : Refuses core value.flat → Refuses core (membersFlat ((key, value) :: blocks)) :=
      Refuses.mono fun hflat => (WritesUnless.membersFlat_cons.mp hflat).1
    have hbad : Refuses core (membersFlat blocks) →
        Refuses core (membersFlat ((key, value) :: blocks)) :=
      Refuses.mono fun hflat => (WritesUnless.membersFlat_cons.mp hflat).2
    rw [Hrbl.printIniRootBlocks]
    refine unfailed (attempt ((WritesUnless.printIniEntry h value [] key).mono hentry
      fun _ _ => id) fun text htext => (ih hrest).mono hbad fun _ rest hlines => ?_)
    have hnone : memberLines (key, value) = [] := by
      cases value with
      | block inner => rfl
      | scalar s =>
        rw [isBlock_scalar] at hkind
        cases hkind
      | array elements => cases hkind
    rw [hnone, List.nil_append] at htext
    exact ⟨WritesUnless.membersFlat_cons.mpr ⟨htext.1, hlines.1⟩, htext.2.append hlines.2⟩

end WritesOrMarks

theorem nestedLines_filter (section_ : Bytes) (members : List (Bytes × Value)) :
    nestedLines section_ (members.filter isBlock) = nestedLines section_ members := by
  induction members with
  | nil => rfl
  | cons member members ih =>
    obtain ⟨key, value⟩ := member
    cases value with
    | scalar s =>
      rw [List.filter_cons_of_neg (by rw [isBlock_scalar]; exact Bool.false_ne_true), ih]
      rfl
    | array elements =>
      rw [List.filter_cons_of_neg (by rw [isBlock_array]; exact Bool.false_ne_true), ih]
      rfl
    | block inner =>
      rw [List.filter_cons_of_pos (isBlock_block key inner), nestedLines, nestedLines, ih]

/-- Once the export is marked as failed, the second loop at the root does nothing. -/
theorem printIniRootBlocks_marked (core : Core σ) (blocks : List (Bytes × Value))
    {s : ExportState σ} (h : s.writeFailed = true) : printIniRootBlocks core blocks s = .ok () s := by
  cases blocks with
  | nil => rfl
  | cons member blocks =>
    have hrun : printIniRootBlocks core (member :: blocks) s =
        (if s.writeFailed = true then pure () else _ : ExportM σ Unit) s := rfl
    rw [hrun, if_pos h]
    rfl

/-- A document is written as its lines if its export returns `true`, which it does if no array
has a container in it and nothing is refused. -/
theorem printIniRoots_end {core : Core σ} {output : σ → Bytes} (h : core.Appends output)
    (document : Document) (world : σ) : ∃ result world',
    exportEnd (printIniRoots core document) world = (.ok result, world') ∧
    (result = true → membersFlat document = true ∧ ∃ text,
      output world' = output world ++ text ∧ AreIniLines core (documentLines document) text) ∧
    (membersFlat document = true → core.Grants → result = true) := by
  by_cases hempty : document.length = 0
  · obtain rfl := List.length_eq_zero_iff.mp hempty
    exact ⟨true, world, rfl, fun _ => ⟨rfl, [], (List.append_nil _).symm, .nil⟩, fun _ _ => rfl⟩
  -- the array for the entries
  have hstart : printIniRoots core document { world, writeFailed := false } =
      EStateM.bind (scratchAlloc core (document.length * 24) (throw .failed))
        (fun _ => printIniRootPlain core (document.length * 24) document [] >>= fun blocks =>
          printIniRootBlocks core blocks) { world, writeFailed := false } := by
    rw [printIniRoots, if_neg hempty]
    rfl
  have hscratch : scratchAlloc core (document.length * 24) (throw .failed)
      { world, writeFailed := false } =
      (if (core.allocate (document.length * 24) world).1 = true then pure () else throw .failed :
        ExportM σ Unit)
        { world := (core.allocate (document.length * 24) world).2, writeFailed := false } := rfl
  have houtput₁ := h.allocate (document.length * 24) world
  obtain ⟨world₁, hworld₁⟩ : ∃ world₁, (core.allocate (document.length * 24) world).2 = world₁ :=
    ⟨_, rfl⟩
  rw [hworld₁] at hscratch houtput₁
  rw [EStateM.bind, hscratch] at hstart
  cases hallocated : (core.allocate (document.length * 24) world).1 with
  | false =>
    rw [hallocated] at hstart
    refine ⟨false, world₁, ?_, fun hfalse => absurd hfalse Bool.false_ne_true, fun _ hgrants => ?_⟩
    · have hrun : (printIniRoots core document).run { world, writeFailed := false } =
          .error .failed { world := world₁, writeFailed := false } := hstart
      rw [exportEnd, hrun]
    · rw [hgrants.allocate] at hallocated
      cases hallocated
  | true =>
    rw [hallocated] at hstart
    have hloops : printIniRoots core document { world, writeFailed := false } =
        EStateM.bind (printIniRootPlain core (document.length * 24) document [])
          (fun blocks => printIniRootBlocks core blocks)
          { world := world₁, writeFailed := false } := hstart
    rw [EStateM.bind] at hloops
    rcases WritesOrMarks.printIniRootPlain h (document.length * 24) document []
      { world := world₁, writeFailed := false } rfl with
      ⟨gathered, text, s₂, hplain, hready₂, houtput₂, hgathered, hflat, hlines⟩ |
      ⟨hbad, gathered, s₂, hplain, hmarked⟩
    · obtain rfl : gathered = document.filter isBlock := hgathered
      rw [hplain] at hloops
      dsimp only at hloops
      have hfiltered : membersFlat document = true → membersFlat (document.filter isBlock) = true := by
        rw [membersFlat_eq, membersFlat_eq, List.all_eq_true, List.all_eq_true]
        exact fun hall member hmember => hall member (List.mem_filter.mp hmember).1
      rcases WritesOrMarks.printIniRootBlocks h (fun _ hmember => (List.mem_filter.mp hmember).2)
        s₂ hready₂ with
        ⟨_, rest, s₃, hblocks, hready₃, houtput₃, hrest, hnested⟩ | ⟨hbad, _, s₃, hblocks, hmarked⟩
      · -- both loops have come to their ends
        rw [hblocks] at hloops
        have hwhole : membersFlat document = true :=
          WritesUnless.membersFlat_of_kinds hflat fun member hmember hkind => by
            rw [membersFlat_eq, List.all_eq_true] at hrest
            exact hrest member (List.mem_filter.mpr ⟨hmember, hkind⟩)
        refine ⟨true, s₃.world, ?_, fun _ => ⟨hwhole, text ++ rest, ?_, ?_⟩, fun _ _ => rfl⟩
        · rw [exportEnd_ok hloops, hready₃, Bool.not_false]
        · rw [houtput₃, houtput₂, houtput₁, List.append_assoc]
        · rw [nestedLines_filter] at hnested
          exact hlines.append hnested
      · rw [hblocks] at hloops
        refine ⟨false, s₃.world, ?_, fun hfalse => absurd hfalse Bool.false_ne_true,
          fun hwhole hgrants => ?_⟩
        · rw [exportEnd_ok hloops, hmarked, Bool.not_true]
        · exact absurd ⟨hfiltered hwhole, hgrants⟩ hbad
    · rw [hplain] at hloops
      dsimp only at hloops
      rw [printIniRootBlocks_marked core gathered hmarked] at hloops
      refine ⟨false, s₂.world, ?_, fun hfalse => absurd hfalse Bool.false_ne_true,
        fun hwhole hgrants => ?_⟩
      · rw [exportEnd_ok hloops, hmarked, Bool.not_true]
      · exact absurd ⟨hwhole, hgrants⟩ hbad

/-! ## Written documents -/

/-- Of a file that holds a document, the INI exporter writes the lines of the document, with the
members of the root and of every block in the order of the export. -/
theorem exportIniEx_end {core : Core σ} {output : σ → Bytes} (h : core.Appends output)
    (hsort : Sorts core.sortWithCompare) {hash64 : Bytes → UInt64} {r : Reader}
    {document : Document} (hfile : HoldsDocument hash64 r document) {levels : Nat}
    (hlevels : membersDepth document ≤ levels) (how : Option ExportOptions) (world : σ) :
    ∃ result world' document', exportIniEx core levels r how world = (.ok result, world') ∧
      RearrangedDocument (exportOrder how) document document' ∧
      (result = true → membersFlat document = true ∧ ∃ text,
        output world' = output world ++ text ∧ AreIniLines core (documentLines document') text) ∧
      (membersFlat document = true → core.Grants → result = true) := by
  obtain ⟨document', horder, hprint⟩ :
      ∃ document', RearrangedDocument (exportOrder how) document document' ∧ _ :=
    iniRoots_holds hsort hfile hlevels
  obtain ⟨result, world', hend, hlines, hreturns⟩ := printIniRoots_end h document' world
  have hflat : membersFlat document' = membersFlat document :=
    horder.flat_eq fun _ _ => exportOrder.perm
  rw [hflat] at hlines hreturns
  refine ⟨result, world', document', ?_, horder, hlines, hreturns⟩
  rw [exportIniEx, hprint, hend]

/-- The INI export of a file that a writer returns: `true` means that no array has a container in
it, and that the lines of the document are written, in which every scalar outside of arrays has
one line, and every array one line for each element, in their order. If nothing is refused, it
returns `true` for every such document. -/
theorem ini_export_complete {core : Core σ} {output : σ → Bytes} (hcore : core.Appends output)
    (hsort : Sorts core.sortWithCompare) {env : Env} {options : Option WriterOptions}
    {ops : List Op} {w : Writer} (hrun : (Writer.create options).runs env ops = some w)
    (hclosed : w.currentScope = none) (how : Option ExportOptions) :
    ∃ document : Document, Builder.empty.run ops = some ⟨document, []⟩ ∧
      (documentSize env.hash64 document < 2 ^ 32 →
        w.Finalizes env document fun b => ∃ r enough, openBuffer true b = .ok r ∧
          ∀ levels ≥ enough, ∀ world, ∃ result world',
            exportIniEx core levels r how world = (.ok result, world') ∧
            (core.Grants → (result = true ↔ membersFlat document = true)) ∧
            (result = true → membersFlat document = true ∧
              ∃ (text : Bytes) (document' : Document) (groups : List (List IniLine)),
                output world' = output world ++ text ∧
                RearrangedDocument List.Perm document document' ∧
                AreIniLines core (documentLines document') text ∧
                (documentLines document').filter IniLine.isRecord = groups.flatten ∧
                groups.Perm (membersRecords document))) := by
  obtain ⟨document, hb, hwritten⟩ := runs_written hrun hclosed
  refine ⟨document, hb, fun hsize => ?_⟩
  refine (hwritten hsize).mono fun b hbytes =>
    ⟨_, membersDepth document, openBuffer_document hbytes, ?_⟩
  intro levels hlevels world
  have hdepth : membersDepth (document.inFileOrder env.hash64) ≤ levels := by
    rwa [membersDepth_document]
  have hstored := rearrangedDocument_inFileOrder env.hash64 document
  obtain ⟨result, world', document', hend, horder, hlines, hreturns⟩ :=
    exportIniEx_end hcore hsort (holdsDocument_document hbytes hsize) hdepth how world
  have hperm : RearrangedDocument List.Perm document document' :=
    hstored.trans (horder.mono fun _ _ => exportOrder.perm)
  have hflat : membersFlat (document.inFileOrder env.hash64) = membersFlat document :=
    hstored.flat_eq fun _ _ => id
  rw [hflat] at hlines hreturns
  refine ⟨result, world', hend, fun hgrants => ⟨fun htrue => (hlines htrue).1, fun hwhole =>
    hreturns hwhole hgrants⟩, fun htrue => ?_⟩
  obtain ⟨hwhole, text, houtput, htext⟩ := hlines htrue
  obtain ⟨groups, hgroups, hrecords⟩ := documentLines_records document'
  exact ⟨hwhole, text, document', groups, houtput, hperm, htext, hgroups,
    hrecords.trans (hperm.records_perm fun _ _ => id)⟩

theorem plainCore_appends : plainCore.Appends id where
  writeBytes data world world' hrun := by
    cases hrun
    rfl
  allocate _ _ := rfl
  formatSigned _ _ := rfl
  formatUnsigned _ _ := rfl
  formatHexadecimal _ _ := rfl
  formatDouble _ _ world := ⟨_, world, rfl, rfl⟩

theorem plainCore_grants : plainCore.Grants where
  writeBytes _ _ := rfl
  allocate _ _ := rfl
  formatSigned _ _ := Option.some_ne_none _
  formatUnsigned _ _ := Option.some_ne_none _
  formatHexadecimal _ _ _ := Option.some_ne_none _

/-- A block with a scalar and an array of two elements, next to a scalar at the root. -/
theorem ini_export_complete_section :
    ∃ w b v r enough, (Writer.create none).runs (.succeeding fun key => UInt64.ofNat key.length)
        [.beginBlock (.data [0x73]), .setInt64 (.data [0x70]) 80, .beginArray (.data [0x71]),
          .appendBool true, .appendNull, .endArray, .endBlock, .setNull (.data [0x6E])] = some w ∧
      finalizeToBuffer (.succeeding fun key => UInt64.ofNat key.length) w =
        .returned b.bytes v ∧
      openBuffer true b = .ok r ∧
      ∀ levels ≥ enough, ∀ world, ∃ world' text document' groups,
        exportIniEx plainCore levels r none world = (.ok true, world') ∧
        world' = world ++ text ∧
        RearrangedDocument List.Perm [([0x73], .block [([0x70], .scalar (.int64 80)),
          ([0x71], .array [.scalar (.bool true), .scalar .null])]), ([0x6E], .scalar .null)]
          document' ∧
        AreIniLines plainCore (documentLines document') text ∧
        (documentLines document').filter IniLine.isRecord = List.flatten groups ∧
        groups.Perm [[.record [0x70] (.int64 80)],
          [.element [0x71] (.bool true), .element [0x71] .null], [.record [0x6E] .null]] := by
  obtain ⟨w, hrun, hclosed, hworkers⟩ : ∃ w, (Writer.create none).runs
      (.succeeding fun key => UInt64.ofNat key.length)
      [.beginBlock (.data [0x73]), .setInt64 (.data [0x70]) 80, .beginArray (.data [0x71]),
        .appendBool true, .appendNull, .endArray, .endBlock, .setNull (.data [0x6E])] = some w ∧
      w.currentScope = none ∧ WorkersFit w.options.workerCount := ⟨_, rfl, rfl, by decide⟩
  obtain ⟨document, hb, hfile⟩ := ini_export_complete plainCore_appends
    plainCore_works.sortWithCompare hrun hclosed none
  cases hb
  obtain ⟨b, v, hreturned, r, enough, hopen, hexport⟩ :=
    (hfile (by decide +kernel)).returned (Env.succeeding_succeeds _) hworkers
  refine ⟨w, b, v, r, enough, hrun, hreturned, hopen, fun levels hlevels world => ?_⟩
  obtain ⟨result, world', hend, hiff, hlines⟩ := hexport levels hlevels world
  obtain rfl := (hiff plainCore_grants).mpr rfl
  obtain ⟨-, text, document', groups, houtput, hall⟩ := hlines rfl
  exact ⟨world', text, document', groups, hend, houtput, hall⟩

end Hrbl
