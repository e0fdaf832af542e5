import Hrbl.IniLines
import Hrbl.Lib.Outputs

/-!
# Invariants of exports

What the calls of an exporter keep, the exporter keeps: of the two exporters on a file, and of
what they print for a document. An invariant is about the world and the mark of a failure, and it
comes with what holds where an export stops.
-/

namespace Hrbl

open Lib Lib.Outcome

variable {σ α : Type}

section

variable (I : ExportState σ → Prop) (E : ExportStop → ExportState σ → Prop)

/-! ## What is kept -/

/-- A call keeps the invariant where it is served; where it is refused and the export is marked, the
export may stop. -/
def Served (served : α → Prop) (call : σ → α × σ) : Prop := ∀ s, I s →
  (served (call s.world).1 → I { s with world := (call s.world).2 }) ∧
  (¬served (call s.world).1 → E .failed { world := (call s.world).2, writeFailed := true })

/-- The calls that both exporters make keep the invariant, and an export that is marked may stop. -/
structure Core.Keeps (core : Core σ) : Prop where
  marked : ∀ s, I s → s.writeFailed = true → E .failed s
  writeBytes : ∀ data, Served I E (· = true) (core.writeBytes data)
  allocate : ∀ bytes, Served I E (· = true) (core.allocate bytes)
  formatSigned : ∀ size value, Served I E (· ≠ none) (core.formatSigned size value)
  formatUnsigned : ∀ size value, Served I E (· ≠ none) (core.formatUnsigned size value)
  formatHexadecimal : ∀ size value width,
    Served I E (· ≠ none) (core.formatHexadecimal size value width)

/-- The JSON exporter is marked where a `double` is not formatted. -/
structure Core.KeepsJson (core : Core σ) : Prop extends core.Keeps I E where
  formatDouble : ∀ size bits, Served I E (· ≠ none) (core.formatDouble size bits)

/-- The INI exporter is not, and it may stop at any time. -/
structure Core.KeepsIni (core : Core σ) : Prop extends core.Keeps I E where
  stop : ∀ s, I s → E .failed s
  formatDouble : ∀ size bits s, I s →
    ((core.formatDouble size bits s.world).1 ≠ none →
      I { s with world := (core.formatDouble size bits s.world).2 }) ∧
    ((core.formatDouble size bits s.world).1 = none →
      E .failed { s with world := (core.formatDouble size bits s.world).2 })

/-- An export may stop where something else is refused, and where a read leaves its object. -/
structure Stops : Prop where
  fail : ∀ s, I s → E .failed { s with writeFailed := true }
  fault : ∀ s, I s → E .fault s

end

theorem callCore_bind {β : Type} (call : σ → α × σ) (m : α → ExportM σ β) (s : ExportState σ) :
    (callCore call >>= m) s = m (call s.world).1 { s with world := (call s.world).2 } := rfl

namespace Keeps

variable {I : ExportState σ → Prop} {E : ExportStop → ExportState σ → Prop} {core : Core σ}

theorem fail (h : Stops I E) : Keeps I E (fail : ExportM σ α) := by
  intro s hs
  refine ⟨fun b s' hrun => ?_, fun e s' hrun => ?_⟩
  · cases hrun
  · cases hrun
    exact h.fail s hs

theorem fromReader (h : Stops I E) (result : Outcome α) :
    Keeps I E (fromReader result : ExportM σ α) := by
  cases result with
  | ok a => exact .pure a
  | no => exact fail h
  | fault => exact .throw h.fault

/-- A call, and what is done where it is served; where it is refused, the export is marked and
stops. -/
theorem call {served : α → Prop} [DecidablePred served] {call : σ → α × σ}
    (hcall : Served I E served call) {β : Type} {m : α → ExportM σ β}
    (hm : ∀ a, served a → Keeps I E (m a)) (hfail : ∀ a, ¬served a → m a = Hrbl.fail) :
    Keeps I E (callCore call >>= m) := by
  intro s hs
  rw [callCore_bind]
  by_cases hserved : served (call s.world).1
  · exact hm _ hserved _ ((hcall s hs).1 hserved)
  · have hend : (Hrbl.fail : ExportM σ β) { s with world := (call s.world).2 } =
        .error .failed { world := (call s.world).2, writeFailed := true } := rfl
    rw [hfail _ hserved, hend]
    refine ⟨fun b s' h => ?_, fun e s' h => ?_⟩
    · cases h
    · cases h
      exact (hcall s hs).2 hserved

theorem scratchAlloc (h : core.Keeps I E) (bytes : Nat) :
    Keeps I E (scratchAlloc core bytes Hrbl.fail) :=
  call (h.allocate bytes) (fun _ ha => .ite (fun _ => .pure _) fun hnot => absurd ha hnot)
    fun _ ha => if_neg ha

theorem exportWriteAll (h : core.Keeps I E) (data : Bytes) :
    Keeps I E (exportWriteAll core data) := by
  intro s hs
  have hstart : Hrbl.exportWriteAll core data s = (if s.writeFailed then throw .failed
      else if data.length = 0 then Pure.pure ()
      else do
        let written ← callCore (core.writeBytes data)
        if written then Pure.pure () else Hrbl.fail : ExportM σ Unit) s := rfl
  rw [hstart]
  by_cases hmarked : s.writeFailed = true
  · rw [if_pos hmarked]
    refine ⟨fun b s' hrun => ?_, fun e s' hrun => ?_⟩
    · cases hrun
    · cases hrun
      exact h.marked s hs hmarked
  · rw [if_neg hmarked]
    exact Keeps.ite (fun _ => .pure _) (fun _ => call (h.writeBytes data)
      (fun _ ha => .ite (fun _ => .pure _) fun hnot => absurd ha hnot) fun _ ha => if_neg ha) s hs

theorem formatted {call : σ → Option Bytes × σ} (h : Served I E (· ≠ none) call) :
    Keeps I E (formatted call) := by
  refine Keeps.call h (fun a ha => ?_) fun a ha => ?_
  · cases a with
    | some bytes => exact .pure _
    | none => exact absurd rfl ha
  · cases a with
    | some bytes => exact absurd (Option.some_ne_none _) ha
    | none => rfl

/-! ## JSON -/

section

variable (h : core.KeepsJson I E) (hstops : Stops I E) (options : Option ExportOptions)
include h

theorem writeNewline : Keeps I E (writeNewline core options) :=
  .ite (fun _ => .pure _) fun _ => exportWriteAll h.toKeeps _

theorem indentLoop (total : Nat) : Keeps I E (indentLoop core total) := by
  fun_induction Hrbl.indentLoop core total with
  | case1 total htotal ih => exact (exportWriteAll h.toKeeps _).bind fun _ => ih
  | case2 total htotal => exact .pure _

theorem writeIndent (depth : UInt32) : Keeps I E (writeIndent core options depth) :=
  .ite (fun _ => .pure _) fun _ => indentLoop h _

theorem hexEscape (codepoint : UInt32) : Keeps I E (hexEscape core codepoint) :=
  (formatted (h.formatHexadecimal _ _ _)).bind fun _ => (exportWriteAll h.toKeeps _).bind fun _ =>
    exportWriteAll h.toKeeps _

theorem writePiece (piece : JsonPiece) : Keeps I E (writePiece core piece) := by
  cases piece with
  | bytes bytes => exact exportWriteAll h.toKeeps _
  | escape codepoint => exact hexEscape h _
  | surrogates high low => exact (hexEscape h _).bind fun _ => hexEscape h _

include hstops in
theorem jsonStringLoop (data : Bytes) (length index : Nat) :
    Keeps I E (jsonStringLoop core options data length index) := by
  fun_induction Hrbl.jsonStringLoop core options data length index with
  | case1 => exact fail hstops
  | case2 => exact .throw hstops.fault
  | case3 index hindex piece consumed hpiece ih => exact (writePiece h piece).bind fun _ => ih
  | case4 => exact .pure _

include hstops in
theorem writeJsonString (data : Bytes) (length : Nat) :
    Keeps I E (writeJsonString core options data length) :=
  (exportWriteAll h.toKeeps _).bind fun _ => (jsonStringLoop h hstops options _ _ _).bind fun _ =>
    exportWriteAll h.toKeeps _

theorem writeNumberInt64 (value : Int64) : Keeps I E (writeNumberInt64 core value) :=
  (formatted (h.formatSigned _ _)).bind fun _ => exportWriteAll h.toKeeps _

theorem writeNumberUint64 (value : UInt64) : Keeps I E (writeNumberUint64 core value) :=
  (formatted (h.formatUnsigned _ _)).bind fun _ => exportWriteAll h.toKeeps _

theorem writeNumberFloat64 (bits : UInt64) : Keeps I E (writeNumberFloat64 core bits) :=
  .ite (fun _ => exportWriteAll h.toKeeps _) fun _ => (formatted (h.formatDouble _ _)).bind fun _ =>
    (exportWriteAll h.toKeeps _).bind fun _ => .ite (fun _ => .pure _) fun _ =>
      exportWriteAll h.toKeeps _

/-- What is written before a member or an element that is not the first. -/
theorem separator {first : Bool} {m : ExportM σ α} (hm : Keeps I E m) :
    Keeps I E (if !first then do
      Hrbl.exportWriteAll core [0x2C]
      Hrbl.writeNewline core options
      m
    else m) :=
  .ite (fun _ => (exportWriteAll h.toKeeps _).bind fun _ => (writeNewline h options).bind fun _ =>
    hm) fun _ => hm

/-- What is written between a key and its value. -/
theorem colon {m : ExportM σ α} (hm : Keeps I E m) :
    Keeps I E (if indentSpacesOf options = 0 then do
      Hrbl.exportWriteAll core [0x3A]
      m
    else do
      Hrbl.exportWriteAll core [0x3A, 0x20]
      m) :=
  .ite (fun _ => (exportWriteAll h.toKeeps _).bind fun _ => hm) fun _ =>
    (exportWriteAll h.toKeeps _).bind fun _ => hm

include hstops in
theorem printScalar (s : Scalar) : Keeps I E (printScalar core options s) := by
  cases s with
  | null => exact exportWriteAll h.toKeeps _
  | bool value => cases value <;> exact exportWriteAll h.toKeeps _
  | int64 value => exact writeNumberInt64 h value
  | uint64 value => exact writeNumberUint64 h value
  | float64 bits => exact writeNumberFloat64 h bits
  | string value => exact writeJsonString h hstops options _ _

end

section

variable (options : Option ExportOptions)

mutual

theorem printValue (h : core.KeepsJson I E) (hstops : Stops I E) :
    ∀ (value : Value) (depth : UInt32), Keeps I E (printValue core options value depth)
  | .scalar s, _ => by
    rw [Hrbl.printValue]
    exact printScalar h hstops options s
  | .block members, depth => by
    rw [Hrbl.printValue]
    refine .ite (fun _ => exportWriteAll h.toKeeps _) fun _ => ?_
    exact (exportWriteAll h.toKeeps _).bind fun _ => (writeNewline h options).bind fun _ =>
      (scratchAlloc h.toKeeps _).bind fun _ => (printMembers h hstops members true _).bind fun _ =>
      (writeNewline h options).bind fun _ => (writeIndent h options _).bind fun _ =>
      exportWriteAll h.toKeeps _
  | .array elements, depth => by
    rw [Hrbl.printValue]
    refine .ite (fun _ => exportWriteAll h.toKeeps _) fun _ => ?_
    exact (exportWriteAll h.toKeeps _).bind fun _ => (writeNewline h options).bind fun _ =>
      (printElements h hstops elements true _).bind fun _ => (writeNewline h options).bind fun _ =>
      (writeIndent h options _).bind fun _ => exportWriteAll h.toKeeps _

theorem printMembers (h : core.KeepsJson I E) (hstops : Stops I E) :
    ∀ (members : List (Bytes × Value)) (first : Bool) (depth : UInt32),
      Keeps I E (printMembers core options members first depth)
  | [], _, _ => by
    rw [Hrbl.printMembers]
    exact .pure _
  | (key, value) :: members, first, depth => by
    rw [Hrbl.printMembers]
    exact separator h options ((writeIndent h options _).bind fun _ =>
      (writeJsonString h hstops options _ _).bind fun _ => colon h options
        ((printValue h hstops value depth).bind fun _ =>
          printMembers h hstops members false depth))

theorem printElements (h : core.KeepsJson I E) (hstops : Stops I E) :
    ∀ (elements : List Value) (first : Bool) (depth : UInt32),
      Keeps I E (printElements core options elements first depth)
  | [], _, _ => by
    rw [Hrbl.printElements]
    exact .pure _
  | value :: elements, first, depth => by
    rw [Hrbl.printElements]
    exact separator h options ((writeIndent h options _).bind fun _ =>
      (printValue h hstops value depth).bind fun _ => printElements h hstops elements false depth)

end

/-- The array for the entries of the root is no part of what `Core.Keeps` is about: where it is
refused, the export stops without a mark. -/
theorem printRoots (h : core.KeepsJson I E) (hstops : Stops I E) {document : Document}
    (halloc : Keeps I E (Hrbl.scratchAlloc core (document.length * 32) (throw .failed))) :
    Keeps I E (printRoots core options document) := by
  refine .ite (fun _ => ?_) fun _ => ?_
  · exact (exportWriteAll h.toKeeps _).bind fun _ => writeNewline h options
  · exact (exportWriteAll h.toKeeps _).bind fun _ => (writeNewline h options).bind fun _ =>
      halloc.bind fun _ => (printMembers options h hstops document true 1).bind fun _ =>
      (writeNewline h options).bind fun _ => (exportWriteAll h.toKeeps _).bind fun _ =>
      writeNewline h options

end

/-! ### From a file -/

theorem sortEntries (hstops : Stops I E) {less : α → α → Outcome Bool} (entries : List α) :
    Keeps I E (sortEntries core less entries) :=
  .ite (fun _ => .throw hstops.fault) fun _ => .pure _

section

variable (h : core.KeepsJson I E) (hstops : Stops I E) (options : Option ExportOptions) (r : Reader)
  {child : UInt64 → UInt32 → ExportM σ Unit} (hchild : ∀ offset depth, Keeps I E (child offset depth))
include h hstops hchild

theorem exportEntriesLoop (depth : UInt32) (first : Bool) (entries : List SortEntry) :
    Keeps I E (exportEntriesLoop core options r child depth first entries) := by
  induction entries generalizing first with
  | nil => exact .pure _
  | cons entry entries ih =>
    rw [Hrbl.exportEntriesLoop]
    exact separator h options ((writeIndent h options _).bind fun _ =>
      (writeJsonString h hstops options _ _).bind fun _ => colon h options
        ((hchild _ _).bind fun _ => ih false))

theorem exportElementsLoop (depth : UInt32) (first : Bool) (count : Nat) (offset : UInt64) :
    Keeps I E (exportElementsLoop core options r child depth first count offset) := by
  induction count generalizing first offset with
  | zero => exact .pure _
  | succ count ih =>
    rw [Hrbl.exportElementsLoop]
    exact separator h options ((writeIndent h options _).bind fun _ =>
      (fromReader hstops _).bind fun _ => (hchild _ _).bind fun _ => ih false _)

theorem exportBlock (offset : UInt64) (depth : UInt32) :
    Keeps I E (exportBlock core options r child offset depth) := by
  refine (fromReader hstops _).bind fun body => .ite (fun _ => exportWriteAll h.toKeeps _)
    fun _ => ?_
  have harrange : ∀ entries, Keeps I E (arrangeEntries core options r entries) := fun entries =>
    .ite (fun _ => sortEntries hstops _) fun _ => sortEntries hstops _
  exact (exportWriteAll h.toKeeps _).bind fun _ => (writeNewline h options).bind fun _ =>
    (scratchAlloc h.toKeeps _).bind fun _ => (fromReader hstops _).bind fun _ =>
    (harrange _).bind fun _ => (exportEntriesLoop h hstops options r hchild _ _ _).bind fun _ =>
    (writeNewline h options).bind fun _ => (writeIndent h options _).bind fun _ =>
    exportWriteAll h.toKeeps _

theorem exportArray (offset : UInt64) (depth : UInt32) :
    Keeps I E (exportArray core options r child offset depth) := by
  refine (fromReader hstops _).bind fun body => .ite (fun _ => exportWriteAll h.toKeeps _)
    fun _ => ?_
  exact (exportWriteAll h.toKeeps _).bind fun _ => (writeNewline h options).bind fun _ =>
    (exportElementsLoop h hstops options r hchild _ _ _ _).bind fun _ =>
    (writeNewline h options).bind fun _ => (writeIndent h options _).bind fun _ =>
    exportWriteAll h.toKeeps _

end

theorem exportValue (h : core.KeepsJson I E) (hstops : Stops I E)
    (hoverflow : ∀ s, I s → E .overflow s) (options : Option ExportOptions) (r : Reader)
    (levels : Nat) (offset : UInt64) (depth : UInt32) :
    Keeps I E (exportValue core options r levels offset depth) := by
  induction levels generalizing offset depth with
  | zero => exact .throw hoverflow
  | succ levels ih =>
    refine (fromReader hstops _).bind fun kind => ?_
    cases kind with
    | null => exact exportWriteAll h.toKeeps _
    | false => exact exportWriteAll h.toKeeps _
    | true => exact exportWriteAll h.toKeeps _
    | int64 => exact (fromReader hstops _).bind fun _ => writeNumberInt64 h _
    | uint64 => exact (fromReader hstops _).bind fun _ => writeNumberUint64 h _
    | float64 => exact (fromReader hstops _).bind fun _ => writeNumberFloat64 h _
    | string => exact (fromReader hstops _).bind fun _ => writeJsonString h hstops options _ _
    | block => exact exportBlock h hstops options r ih offset depth
    | array => exact exportArray h hstops options r ih offset depth

theorem exportRoots (h : core.KeepsJson I E) (hstops : Stops I E)
    (hoverflow : ∀ s, I s → E .overflow s) (options : Option ExportOptions) (r : Reader)
    (levels : Nat)
    (halloc : ∀ bytes, Keeps I E (Hrbl.scratchAlloc core bytes (throw .failed))) :
    Keeps I E (exportRoots core options r levels) := by
  have harrange : ∀ entries, Keeps I E (arrangeEntries core options r entries) := fun entries =>
    .ite (fun _ => sortEntries hstops _) fun _ => sortEntries hstops _
  have hvalue := exportValue h hstops hoverflow options r levels
  refine .ite (fun _ => ?_) fun _ => ?_
  · exact (exportWriteAll h.toKeeps _).bind fun _ => writeNewline h options
  · exact (exportWriteAll h.toKeeps _).bind fun _ => (writeNewline h options).bind fun _ =>
      (halloc _).bind fun _ => (fromReader hstops _).bind fun _ => (harrange _).bind fun _ =>
      (exportEntriesLoop h hstops options r hvalue _ _ _).bind fun _ =>
      (writeNewline h options).bind fun _ => (exportWriteAll h.toKeeps _).bind fun _ =>
      writeNewline h options

/-! ## INI -/

section

variable (h : core.KeepsIni I E)
include h

theorem iniWriteByte (c : UInt8) : Keeps I E (iniWriteByte core c) := by
  rw [Hrbl.iniWriteByte]
  cases iniEscape c with
  | some chunk => exact exportWriteAll h.toKeeps _
  | none =>
    exact .ite (fun _ => (formatted (h.formatHexadecimal _ _ _)).bind fun _ =>
      (exportWriteAll h.toKeeps _).bind fun _ => exportWriteAll h.toKeeps _) fun _ =>
      exportWriteAll h.toKeeps _

/-- The loop over a string does not leave a string whose bytes are all there. -/
theorem iniEscapedLoop {data : Bytes} {length : Nat}
    (hinside : Stops I E ∨ length ≤ data.length) (i : Nat) :
    Keeps I E (iniEscapedLoop core data length i) := by
  fun_induction Hrbl.iniEscapedLoop core data length i with
  | case1 i hi hnone =>
    rcases hinside with hstops | hle
    · exact .throw hstops.fault
    · rw [List.getElem?_eq_none_iff] at hnone
      omega
  | case2 i hi c hsome ih => exact (iniWriteByte h c).bind fun _ => ih
  | case3 => exact .pure _

theorem iniWriteEscaped {data : Bytes} {length : Nat}
    (hinside : Stops I E ∨ length ≤ data.length) :
    Keeps I E (iniWriteEscaped core data length) :=
  (exportWriteAll h.toKeeps _).bind fun _ => (iniEscapedLoop h hinside _).bind fun _ =>
    exportWriteAll h.toKeeps _

theorem iniWriteFloat (bits : UInt64) : Keeps I E (iniWriteFloat core bits) := by
  refine .ite (fun _ => exportWriteAll h.toKeeps _) fun _ => ?_
  intro s hs
  rw [callCore_bind]
  obtain ⟨hserved, hrefused⟩ := h.formatDouble 64 bits s hs
  cases hresult : (core.formatDouble 64 bits s.world).1 with
  | some text =>
    exact exportWriteAll h.toKeeps text _ (hserved (hresult ▸ Option.some_ne_none text))
  | none =>
    refine ⟨fun b s' hok => ?_, fun e s' hstop => ?_⟩
    · cases hok
    · cases hstop
      exact hrefused hresult

theorem printIniScalar (s : Scalar) : Keeps I E (printIniScalar core s) := by
  cases s with
  | null => exact exportWriteAll h.toKeeps _
  | bool value => cases value <;> exact exportWriteAll h.toKeeps _
  | int64 value =>
    exact (formatted (h.formatSigned _ _)).bind fun _ => exportWriteAll h.toKeeps _
  | uint64 value =>
    exact (formatted (h.formatUnsigned _ _)).bind fun _ => exportWriteAll h.toKeeps _
  | float64 bits => exact iniWriteFloat h bits
  | string value => exact iniWriteEscaped h (.inr le_rfl)

/-- The line of a scalar. -/
theorem valueLine (key mark : Bytes) {scalar : ExportM σ Unit} (hscalar : Keeps I E scalar)
    {m : ExportM σ Unit} (hm : Keeps I E m) : Keeps I E (do
      iniWrite core key
      iniWriteLiteral core mark
      scalar
      iniWriteLiteral core [0x0A]
      m) :=
  (exportWriteAll h.toKeeps _).bind fun _ => (exportWriteAll h.toKeeps _).bind fun _ =>
    hscalar.bind fun _ => (exportWriteAll h.toKeeps _).bind fun _ => hm

/-- The header of a section that has a name. -/
theorem header (name : Bytes) {m : ExportM σ Unit} (hm : Keeps I E m) : Keeps I E (do
      if name.length ≠ 0 then do
        iniWriteLiteral core [0x5B]
        iniWrite core name
        iniWriteLiteral core [0x5D, 0x0A]
      m) :=
  .ite (fun _ => (exportWriteAll h.toKeeps _).bind fun _ => (exportWriteAll h.toKeeps _).bind
    fun _ => (exportWriteAll h.toKeeps _).bind fun _ => hm) fun _ => hm

end

/-- An array stops an export only where it has a container in it. -/
theorem printIniElements (h : core.KeepsIni I E) (key : Bytes) {elements : List Value}
    (hflat : Stops I E ∨ (Value.array elements).flat = true) :
    Keeps I E (printIniElements core key elements) := by
  have hcontainer : ∀ {value : Value} {rest : List Value}, value.scalar? = none →
      Stops I E ∨ (Value.array (value :: rest)).flat = true → Keeps I E (Hrbl.fail : ExportM σ Unit) := by
    intro value rest hvalue hflat
    rcases hflat with hstops | hflat
    · exact fail hstops
    · rw [Value.flat, List.all_cons, hvalue] at hflat
      cases hflat
  induction elements with
  | nil => exact .pure _
  | cons value elements ih =>
    cases value with
    | scalar s => exact valueLine h key _ (printIniScalar h s) (ih hflat)
    | block members => exact hcontainer rfl hflat
    | array inner => exact hcontainer rfl hflat

theorem flat_head {key : Bytes} {value : Value} {members : List (Bytes × Value)}
    (hflat : Stops I E ∨ membersFlat ((key, value) :: members) = true) :
    Stops I E ∨ value.flat = true := by
  refine hflat.imp_right fun hflat => ?_
  rw [membersFlat, Bool.and_eq_true] at hflat
  exact hflat.1

theorem flat_tail {member : Bytes × Value} {members : List (Bytes × Value)}
    (hflat : Stops I E ∨ membersFlat (member :: members) = true) :
    Stops I E ∨ membersFlat members = true := by
  refine hflat.imp_right fun hflat => ?_
  rw [membersFlat, Bool.and_eq_true] at hflat
  exact hflat.2

mutual

theorem printIniEntry (h : core.KeepsIni I E) : ∀ (value : Value) (section_ key : Bytes),
    Stops I E ∨ value.flat = true → Keeps I E (printIniEntry core section_ key value)
  | .scalar s, section_, key, _ => by
    rw [Hrbl.printIniEntry]
    have hline := valueLine h key [0x20, 0x3D, 0x20] (printIniScalar h s) (.pure ())
    rwa [bind_pure_unit] at hline
  | .array elements, section_, key, hflat => by
    rw [Hrbl.printIniEntry]
    exact printIniElements h key hflat
  | .block members, section_, key, hflat => by
    rw [Hrbl.printIniEntry]
    have hmembers : Keeps I E (do
        Hrbl.printIniPlain core (newSection section_ key) (members.length * 24) false members
        if members.any isBlock then do
          iniWriteLiteral core [0x0A]
          Hrbl.printIniBlocks core (newSection section_ key) members) :=
      (printIniPlain h members _ _ _ hflat).bind fun _ => .ite (fun _ =>
        (exportWriteAll h.toKeeps _).bind fun _ => printIniBlocks h members _ hflat) fun _ => .pure _
    have hbody := header h (newSection section_ key) hmembers
    exact (scratchAlloc h.toKeeps _).bind fun _ => .ite (fun _ =>
      (scratchAlloc h.toKeeps _).bind fun _ => hbody) fun _ => hbody

theorem printIniPlain (h : core.KeepsIni I E) : ∀ (members : List (Bytes × Value))
    (section_ : Bytes) (bytes : Nat) (gathered : Bool),
    Stops I E ∨ membersFlat members = true →
      Keeps I E (printIniPlain core section_ bytes gathered members)
  | [], section_, bytes, gathered, _ => by
    rw [Hrbl.printIniPlain]
    exact .pure _
  | (key, value) :: members, section_, bytes, gathered, hflat => by
    rw [Hrbl.printIniPlain]
    have hrest := fun gathered => printIniPlain h members section_ bytes gathered (flat_tail hflat)
    exact .ite (fun _ => .ite (fun _ => (scratchAlloc h.toKeeps _).bind fun _ => hrest true)
      fun _ => hrest true) fun _ =>
        (printIniEntry h value section_ key (flat_head hflat)).bind fun _ => hrest gathered

theorem printIniBlocks (h : core.KeepsIni I E) : ∀ (members : List (Bytes × Value))
    (section_ : Bytes), Stops I E ∨ membersFlat members = true →
      Keeps I E (printIniBlocks core section_ members)
  | [], section_, _ => by
    rw [Hrbl.printIniBlocks]
    exact .pure _
  | (key, value) :: members, section_, hflat => by
    rw [Hrbl.printIniBlocks]
    have hrest := printIniBlocks h members section_ (flat_tail hflat)
    exact .ite (fun _ => (printIniEntry h value section_ key (flat_head hflat)).bind fun _ =>
      hrest) fun _ => hrest

end

/-! ### The root -/

/-- An entry whose failure the caller looks at: an export that goes on keeps what it would have
stopped with, and it does not stop for this. -/
theorem attempt {E' : ExportStop → ExportState σ → Prop} (hback : ∀ s, E .failed s → I s)
    (hrest : ∀ e s, e ≠ .failed → E e s → E' e s) {m : ExportM σ Unit} (hm : Keeps I E m) :
    Keeps I E' (attempt m) := by
  intro s hs
  rw [Hrbl.attempt]
  obtain ⟨hok, herror⟩ := hm s hs
  cases hrun : m s with
  | ok a s₁ =>
    refine ⟨fun b s' h => ?_, fun e s' h => ?_⟩
    · cases h
      exact hok a s₁ hrun
    · cases h
  | error stop s₁ =>
    have hstop := herror stop s₁ hrun
    cases stop with
    | failed =>
      refine ⟨fun b s' h => ?_, fun e s' h => ?_⟩
      · cases h
        exact hback s₁ hstop
      · cases h
    | fault =>
      refine ⟨fun b s' h => ?_, fun e s' h => ?_⟩
      · cases h
      · cases h
        exact hrest _ _ (by decide) hstop
    | overflow =>
      refine ⟨fun b s' h => ?_, fun e s' h => ?_⟩
      · cases h
      · cases h
        exact hrest _ _ (by decide) hstop

/-- The array for the blocks at the root; where it is refused, the loop is left with a mark. -/
theorem gather {E' : ExportStop → ExportState σ → Prop} (h : core.KeepsIni I E)
    (hback : ∀ s, E .failed s → I s) {β : Type} {blocks : List β} (bytes : Nat)
    {next : ExportM σ (List β)} (hnext : Keeps I E' next) : Keeps I E' (do
      let allocated ← if blocks = [] then callCore (core.allocate bytes) else Pure.pure true
      if allocated then next else breakFailed blocks) := by
  have hallocated : Keeps I E' (callCore (core.allocate bytes) >>= fun allocated =>
      if allocated then next else breakFailed blocks) := by
    intro s hs
    rw [callCore_bind]
    obtain ⟨hserved, hrefused⟩ := h.allocate bytes s hs
    cases hresult : (core.allocate bytes s.world).1 with
    | true => exact hnext _ (hserved hresult)
    | false =>
      refine ⟨fun b s' hok => ?_, fun e s' hstop => ?_⟩
      · cases hok
        exact hback _ (hrefused (by rw [hresult]; exact Bool.false_ne_true))
      · cases hstop
  by_cases hnone : blocks = []
  · rw [if_pos hnone]
    exact hallocated
  · rw [if_neg hnone]
    exact hnext

theorem printIniRootPlain {E' : ExportStop → ExportState σ → Prop} (h : core.KeepsIni I E)
    (hback : ∀ s, E .failed s → I s) (hrest : ∀ e s, e ≠ .failed → E e s → E' e s) (bytes : Nat)
    (members blocks : List (Bytes × Value))
    (hflat : Stops I E ∨ membersFlat members = true) :
    Keeps I E' (printIniRootPlain core bytes members blocks) := by
  induction members generalizing blocks with
  | nil => exact .pure _
  | cons member members ih =>
    obtain ⟨key, value⟩ := member
    have hmore := fun blocks => ih blocks (flat_tail hflat)
    rw [Hrbl.printIniRootPlain]
    refine Keeps.get.bind fun _ => .ite (fun _ => .pure _) fun _ => .ite (fun _ => ?_) fun _ => ?_
    · exact gather h hback bytes (hmore _)
    · exact (attempt hback hrest (printIniEntry h value [] key (flat_head hflat))).bind fun _ =>
        .ite (fun _ => hmore _) fun _ => .pure _

theorem printIniRootBlocks {E' : ExportStop → ExportState σ → Prop} (h : core.KeepsIni I E)
    (hback : ∀ s, E .failed s → I s) (hrest : ∀ e s, e ≠ .failed → E e s → E' e s)
    (blocks : List (Bytes × Value)) (hflat : Stops I E ∨ membersFlat blocks = true) :
    Keeps I E' (printIniRootBlocks core blocks) := by
  induction blocks with
  | nil => exact .pure _
  | cons member blocks ih =>
    obtain ⟨key, value⟩ := member
    rw [Hrbl.printIniRootBlocks]
    exact Keeps.get.bind fun _ => .ite (fun _ => .pure _) fun _ =>
      (attempt hback hrest (printIniEntry h value [] key (flat_head hflat))).bind fun _ =>
        .ite (fun _ => ih (flat_tail hflat)) fun _ => .pure _

/-- The blocks that are gathered are among those that there are. -/
theorem printIniRootPlain_returns (core : Core σ) (bytes : Nat)
    (members blocks : List (Bytes × Value)) :
    Returns (fun gathered => ∀ m ∈ gathered, m ∈ blocks ++ members)
      (Hrbl.printIniRootPlain core bytes members blocks) := by
  induction members generalizing blocks with
  | nil => exact .pure fun m hm => List.mem_append_left _ hm
  | cons member members ih =>
    obtain ⟨key, value⟩ := member
    have hblocks : ∀ m ∈ blocks, m ∈ blocks ++ (key, value) :: members :=
      fun m hm => List.mem_append_left _ hm
    have hnext : Returns (fun gathered => ∀ m ∈ gathered, m ∈ blocks ++ (key, value) :: members)
        (Hrbl.printIniRootPlain core bytes members (blocks ++ [(key, value)])) := by
      refine (ih _).mono fun gathered hgathered m hm => ?_
      rw [← List.singleton_append, ← List.append_assoc]
      exact hgathered m hm
    have hskip : Returns (fun gathered => ∀ m ∈ gathered, m ∈ blocks ++ (key, value) :: members)
        (Hrbl.printIniRootPlain core bytes members blocks) := by
      refine (ih _).mono fun gathered hgathered m hm => ?_
      rcases List.mem_append.mp (hgathered m hm) with hm | hm
      · exact List.mem_append_left _ hm
      · exact List.mem_append_right _ (List.mem_cons_of_mem _ hm)
    have hbreak : Returns (fun gathered => ∀ m ∈ gathered, m ∈ blocks ++ (key, value) :: members)
        (breakFailed blocks : ExportM σ (List (Bytes × Value))) :=
      .bind fun _ => .pure hblocks
    rw [Hrbl.printIniRootPlain]
    refine .bind fun _ => .ite (fun _ => .pure hblocks) fun _ => .ite (fun _ => ?_) fun _ => ?_
    · exact .ite (fun _ => .bind fun _ => .ite (fun _ => hnext) fun _ => hbreak)
        fun _ => .bind fun _ => .ite (fun _ => hnext) fun _ => hbreak
    · exact .bind fun _ => .ite (fun _ => hskip) fun _ => .pure hblocks

theorem printIniRoots {E' : ExportStop → ExportState σ → Prop} (h : core.KeepsIni I E)
    (hback : ∀ s, E .failed s → I s) (hrest : ∀ e s, e ≠ .failed → E e s → E' e s)
    {document : Document} (hflat : Stops I E ∨ membersFlat document = true)
    (halloc : Keeps I E' (Hrbl.scratchAlloc core (document.length * 24) (throw .failed))) :
    Keeps I E' (printIniRoots core document) := by
  refine .ite (fun _ => .pure _) fun _ => halloc.bind fun _ => ?_
  refine (printIniRootPlain h hback hrest _ document [] hflat).bind_returns
    (printIniRootPlain_returns core _ document []) fun gathered hgathered => ?_
  refine printIniRootBlocks h hback hrest gathered (hflat.imp_right fun hflat => ?_)
  rw [membersFlat_eq, List.all_eq_true] at hflat ⊢
  exact fun m hm => hflat m (hgathered m hm)

/-! ### From a file -/

theorem iniWriteScalarValue (h : core.KeepsIni I E) (hstops : Stops I E) (r : Reader)
    (offset : UInt64) : Keeps I E (iniWriteScalarValue core r offset) := by
  refine (fromReader hstops _).bind fun kind => ?_
  cases kind with
  | null => exact exportWriteAll h.toKeeps _
  | false => exact exportWriteAll h.toKeeps _
  | true => exact exportWriteAll h.toKeeps _
  | int64 =>
    exact (fromReader hstops _).bind fun _ => (formatted (h.formatSigned _ _)).bind fun _ =>
      exportWriteAll h.toKeeps _
  | uint64 =>
    exact (fromReader hstops _).bind fun _ => (formatted (h.formatUnsigned _ _)).bind fun _ =>
      exportWriteAll h.toKeeps _
  | float64 => exact (fromReader hstops _).bind fun _ => iniWriteFloat h _
  | string => exact (fromReader hstops _).bind fun _ => iniWriteEscaped h (.inl hstops)
  | block => exact .throw h.stop
  | array => exact .throw h.stop

section

variable (h : core.KeepsIni I E) (hstops : Stops I E) (r : Reader)
include h hstops

theorem iniWriteKey (entry : IniSortEntry) : Keeps I E (iniWriteKey core r entry) :=
  (fromReader hstops _).bind fun _ => exportWriteAll h.toKeeps _

theorem iniElementsLoop (entry : IniSortEntry) (count : Nat) (offset : UInt64) :
    Keeps I E (iniElementsLoop core r entry count offset) := by
  induction count generalizing offset with
  | zero => exact .pure _
  | succ count ih =>
    rw [Hrbl.iniElementsLoop]
    exact (fromReader hstops _).bind fun _ => (fromReader hstops _).bind fun _ =>
      .ite (fun _ => fail hstops) fun _ => (iniWriteKey h hstops r entry).bind fun _ =>
      (exportWriteAll h.toKeeps _).bind fun _ => (iniWriteScalarValue h hstops r _).bind fun _ =>
      (exportWriteAll h.toKeeps _).bind fun _ => ih _

variable {block : Bytes → UInt64 → ExportM σ Unit}
  (hblock : ∀ section_ offset, Keeps I E (block section_ offset))
include hblock

theorem iniEmitEntry (section_ : Bytes) (entry : IniSortEntry) :
    Keeps I E (iniEmitEntry core r block section_ entry) := by
  have hscalar : Keeps I E (do
      Hrbl.iniWriteKey core r entry
      iniWriteLiteral core [0x20, 0x3D, 0x20]
      Hrbl.iniWriteScalarValue core r entry.valueOffset
      iniWriteLiteral core [0x0A]) :=
    (iniWriteKey h hstops r entry).bind fun _ => (exportWriteAll h.toKeeps _).bind fun _ =>
      (iniWriteScalarValue h hstops r _).bind fun _ => exportWriteAll h.toKeeps _
  refine (fromReader hstops _).bind fun kind => ?_
  cases kind with
  | block =>
    exact (scratchAlloc h.toKeeps _).bind fun _ => (fromReader hstops _).bind fun _ => hblock _ _
  | array => exact (fromReader hstops _).bind fun _ => iniElementsLoop h hstops r entry _ _
  | null => exact hscalar
  | false => exact hscalar
  | true => exact hscalar
  | int64 => exact hscalar
  | uint64 => exact hscalar
  | float64 => exact hscalar
  | string => exact hscalar

theorem iniEntriesLoop (section_ : Bytes) (bytes : Nat) (entries blocks : List IniSortEntry) :
    Keeps I E (iniEntriesLoop core r block section_ bytes entries blocks) := by
  induction entries generalizing blocks with
  | nil => exact .pure _
  | cons entry entries ih =>
    rw [Hrbl.iniEntriesLoop]
    exact (fromReader hstops _).bind fun _ => .ite (fun _ => .ite (fun _ =>
      (scratchAlloc h.toKeeps _).bind fun _ => ih _) fun _ => ih _) fun _ =>
      (iniEmitEntry h hstops r hblock section_ entry).bind fun _ => ih _

theorem iniBlocksLoop (section_ : Bytes) (blocks : List IniSortEntry) :
    Keeps I E (iniBlocksLoop core r block section_ blocks) := by
  induction blocks with
  | nil => exact .pure _
  | cons entry blocks ih =>
    rw [Hrbl.iniBlocksLoop]
    exact (iniEmitEntry h hstops r hblock section_ entry).bind fun _ => ih

end

section

variable (h : core.KeepsIni I E) (hstops : Stops I E) (options : Option ExportOptions) (r : Reader)
include h hstops

theorem iniEmitBlock (hoverflow : ∀ s, I s → E .overflow s) (levels : Nat) (section_ : Bytes)
    (offset : UInt64) : Keeps I E (iniEmitBlock core options r levels section_ offset) := by
  induction levels generalizing section_ offset with
  | zero => exact .throw hoverflow
  | succ levels ih =>
    rw [Hrbl.iniEmitBlock]
    refine (fromReader hstops _).bind fun body => ?_
    have hbody : ∀ entries : List IniSortEntry, Keeps I E (do
        if section_.length ≠ 0 then do
          iniWriteLiteral core [0x5B]
          iniWrite core section_
          iniWriteLiteral core [0x5D, 0x0A]
        let blocks ← Hrbl.iniEntriesLoop core r (Hrbl.iniEmitBlock core options r levels) section_
          (body.1.childCount.toNat * 24) entries []
        if blocks ≠ [] then do
          iniWriteLiteral core [0x0A]
          Hrbl.iniBlocksLoop core r (Hrbl.iniEmitBlock core options r levels) section_ blocks) :=
      fun entries => header h section_ ((iniEntriesLoop h hstops r ih section_ _ entries []).bind
        fun blocks => .ite (fun _ => (exportWriteAll h.toKeeps _).bind fun _ =>
          iniBlocksLoop h hstops r ih section_ blocks) fun _ => .pure _)
    have harrange : ∀ entries, Keeps I E (iniArrangeEntries core options r entries) :=
      fun entries => .ite (fun _ => sortEntries hstops _) fun _ => .pure _
    have hentries : Keeps I E (do
        let entries ← Hrbl.fromReader
          (copyEntries r iniSortEntryOf body.1.childCount.toNat body.2)
        let entries ← if body.1.childCount.toNat ≠ 0 then iniArrangeEntries core options r entries
          else Pure.pure entries
        if section_.length ≠ 0 then do
          iniWriteLiteral core [0x5B]
          iniWrite core section_
          iniWriteLiteral core [0x5D, 0x0A]
        let blocks ← Hrbl.iniEntriesLoop core r (Hrbl.iniEmitBlock core options r levels) section_
          (body.1.childCount.toNat * 24) entries []
        if blocks ≠ [] then do
          iniWriteLiteral core [0x0A]
          Hrbl.iniBlocksLoop core r (Hrbl.iniEmitBlock core options r levels) section_ blocks) := by
      refine (fromReader hstops _).bind fun entries => ?_
      exact .ite (fun _ => (harrange _).bind fun _ => hbody _) fun _ =>
        (Keeps.pure _).bind fun _ => hbody _
    exact .ite (fun _ => (scratchAlloc h.toKeeps _).bind fun _ => hentries) fun _ => hentries

variable {block : Bytes → UInt64 → ExportM σ Unit}
  (hblock : ∀ section_ offset, Keeps I E (block section_ offset))
  (hback : ∀ s, E .failed s → I s) {E' : ExportStop → ExportState σ → Prop}
  (hrest : ∀ e s, e ≠ .failed → E e s → E' e s)
include hblock hback hrest

theorem iniRootLoop (bytes : Nat) (entries blocks : List IniSortEntry) :
    Keeps I E' (iniRootLoop core r block bytes entries blocks) := by
  induction entries generalizing blocks with
  | nil => exact .pure _
  | cons entry entries ih =>
    rw [Hrbl.iniRootLoop]
    refine Keeps.get.bind fun _ => .ite (fun _ => .pure _) fun _ => ?_
    cases kindAt r entry.valueOffset with
    | fault => exact .throw fun s hs => hrest _ s (by decide) (hstops.fault s hs)
    | no =>
      -- the mark is set and the loop is left
      intro s hs
      refine ⟨fun b s' hok => ?_, fun e s' hstop => ?_⟩
      · cases hok
        exact hback _ (hstops.fail s hs)
      · cases hstop
    | ok kind =>
      refine .ite (fun _ => gather h hback bytes (ih _)) fun _ => ?_
      exact (attempt hback hrest (iniEmitEntry h hstops r hblock [] entry)).bind fun _ =>
        .ite (fun _ => ih _) fun _ => .pure _

theorem iniRootBlocksLoop (blocks : List IniSortEntry) :
    Keeps I E' (iniRootBlocksLoop core r block blocks) := by
  induction blocks with
  | nil => exact .pure _
  | cons entry blocks ih =>
    rw [Hrbl.iniRootBlocksLoop]
    exact Keeps.get.bind fun _ => .ite (fun _ => .pure _) fun _ =>
      (attempt hback hrest (iniEmitEntry h hstops r hblock [] entry)).bind fun _ =>
        .ite (fun _ => ih) fun _ => .pure _

end

theorem iniRoots {E' : ExportStop → ExportState σ → Prop} (h : core.KeepsIni I E)
    (hstops : Stops I E) (hoverflow : ∀ s, I s → E .overflow s) (hback : ∀ s, E .failed s → I s)
    (hrest : ∀ e s, e ≠ .failed → E e s → E' e s) (hstops' : Stops I E')
    (options : Option ExportOptions) (r : Reader) (levels : Nat)
    (halloc : ∀ bytes, Keeps I E' (Hrbl.scratchAlloc core bytes (throw .failed))) :
    Keeps I E' (iniRoots core options r levels) := by
  have hblock := iniEmitBlock h hstops options r hoverflow levels
  have harrange : ∀ entries, Keeps I E' (iniArrangeEntries core options r entries) :=
    fun entries => .ite (fun _ => sortEntries hstops' _) fun _ => .pure _
  exact .ite (fun _ => .pure _) fun _ => (halloc _).bind fun _ => (fromReader hstops' _).bind
    fun _ => (harrange _).bind fun _ =>
    (iniRootLoop h hstops r hblock hback hrest _ _ _).bind fun _ =>
    iniRootBlocksLoop h hstops r hblock hback hrest _

end Keeps

end Hrbl
