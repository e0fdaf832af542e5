import Hrbl.Confinement
import Hrbl.Lib.Truncation

/-!
# Exports cut short

A sink that is full, a file that cannot be written to any further, an allocator or a formatter that
refuses: when a call fails in an export to JSON or INI that has not failed otherwise, the export
returns `false`, and what it has written is the beginning of what it would have written. This is so
for every file, also for one that a writer has not made, but not for the doubles of INI.
-/

namespace Hrbl

open Lib Lib.Outcome

variable {σ : Type}

/-- The second formatter is the first one, or it refuses; neither of them writes. -/
structure FormatsEarlier (out : σ → Bytes) (call call' : σ → Option Bytes × σ) : Prop where
  keeps : ∀ world, out (call world).2 = out world
  fails : ∀ world, call' world = call world ∨
    ∃ world', call' world = (none, world') ∧ out world' = out world

theorem FormatsEarlier.refl {out : σ → Bytes} {call : σ → Option Bytes × σ}
    (h : ∀ world, out (call world).2 = out world) : FormatsEarlier out call call :=
  ⟨h, fun _ => .inl rfl⟩

/-- The second `Core` is the first one but for calls that fail where those of the first one may not.
A write that fails may have written a part of its bytes. -/
structure FailsEarlier (out : σ → Bytes) (core core' : Core σ) : Prop where
  appends : ∀ data world, out world <+: out (core.writeBytes data world).2
  writes : ∀ data world, core'.writeBytes data world = core.writeBytes data world ∨
    ∃ world', core'.writeBytes data world = (false, world') ∧ out world <+: out world' ∧
      out world' <+: out (core.writeBytes data world).2
  allocate_keeps : ∀ bytes world, out (core.allocate bytes world).2 = out world
  allocates : ∀ bytes world, core'.allocate bytes world = core.allocate bytes world ∨
    ∃ world', core'.allocate bytes world = (false, world') ∧ out world' = out world
  formatSigned : ∀ size value,
    FormatsEarlier out (core.formatSigned size value) (core'.formatSigned size value)
  formatUnsigned : ∀ size value,
    FormatsEarlier out (core.formatUnsigned size value) (core'.formatUnsigned size value)
  formatHexadecimal : ∀ size value width, FormatsEarlier out
    (core.formatHexadecimal size value width) (core'.formatHexadecimal size value width)
  formatDouble : ∀ size bits,
    FormatsEarlier out (core.formatDouble size bits) (core'.formatDouble size bits)
  sorts : ∀ {α : Type} (less : α → α → Bool) (entries : List α),
    core'.sortWithCompare less entries = core.sortWithCompare less entries

/-- What the sink of an export has. -/
def written (out : σ → Bytes) (s : ExportState σ) : Bytes := out s.world

/-- The second run is the first one, or it has returned `false` behind a part of what the first one
writes. -/
def CutShort (out : σ → Bytes) (world : σ) (whole part : Except ExportStop Bool × σ) : Prop :=
  part = whole ∨ (part.1 = .ok false ∧ out world <+: out part.2 ∧ out part.2 <+: out whole.2)

section

variable {out : σ → Bytes} {core core' : Core σ} (hcore : FailsEarlier out core core')
  {marked : ExportState σ → Prop} (hmarked : ∀ s, s.writeFailed = true → marked s)

/-! ## Calls -/

theorem fail_truncates {α : Type} :
    Truncates (written out) marked .failed (fail : ExportM σ α) fail :=
  .quiet fun _ => rfl

theorem fromReader_truncates {α : Type} (outcome : Outcome α) :
    Truncates (written out) marked .failed (fromReader outcome : ExportM σ α)
      (fromReader outcome) := by
  cases outcome with
  | ok a => exact .pure a
  | no => exact fail_truncates
  | fault => exact .throw _

/-- A call that writes nothing and that both runs have. -/
theorem callCore_truncates {α : Type} {call : σ → α × σ}
    (h : ∀ world, out (call world).2 = out world) :
    Truncates (written out) marked .failed (callCore call) (callCore call) :=
  .quiet fun s => h s.world

include hmarked in
/-- A formatter that refuses is marked. -/
theorem formatted_truncates {call call' : σ → Option Bytes × σ}
    (h : FormatsEarlier out call call') :
    Truncates (written out) marked .failed (formatted call) (formatted call') := by
  have hsame : Truncates (written out) marked .failed (formatted call) (formatted call) := by
    refine .bind (callCore_truncates h.keeps) ?_
    intro result
    cases result with
    | some bytes => exact .pure bytes
    | none => exact fail_truncates
  refine ⟨hsame.1, ?_⟩
  intro s
  have hcall : ∀ call : σ → Option Bytes × σ,
      callCore call s = .ok (call s.world).1 { s with world := (call s.world).2 } := fun _ => rfl
  rcases h.fails s.world with heq | ⟨world', heq, hout⟩
  · left
    simp only [formatted, Bind.bind, EStateM.bind, hcall, heq]
  · right
    refine ⟨{ world := world', writeFailed := true }, ?_, hmarked _ rfl, ?_, ?_⟩
    · simp only [formatted, Bind.bind, EStateM.bind, hcall, heq]
      rfl
    · rw [written, written, hout]
    · rw [written, hout]
      exact hsame.1 s

include hcore

theorem scratchAlloc_truncates (bytes : Nat) {failed : ExportM σ Unit}
    (hquiet : ∀ s, ∃ s', failed s = .error .failed s' ∧ s'.world = s.world ∧ marked s') :
    Truncates (written out) marked .failed (scratchAlloc core bytes failed)
      (scratchAlloc core' bytes failed) := by
  have hfailed : Truncates (written out) marked .failed failed failed := by
    apply Truncates.quiet
    intro s
    rcases hquiet s with ⟨s', hrun, hworld, -⟩
    rw [hrun]
    exact congrArg out hworld
  have hcall : Truncates (written out) marked .failed (callCore (core.allocate bytes))
      (callCore (core.allocate bytes)) := callCore_truncates (hcore.allocate_keeps bytes)
  have hsame : Appends (written out) (scratchAlloc core bytes failed) :=
    hcall.1.bind fun allocated => (Truncates.ite (.pure ()) hfailed).1
  refine ⟨hsame, ?_⟩
  intro s
  have hrun : ∀ core : Core σ, scratchAlloc core bytes failed s =
      (if (core.allocate bytes s.world).1 then pure () else failed : ExportM σ Unit)
        { s with world := (core.allocate bytes s.world).2 } := fun _ => rfl
  rcases hcore.allocates bytes s.world with heq | ⟨world', heq, hout⟩
  · left
    rw [hrun, hrun, heq]
  · -- the allocator refuses, and the caller stops
    right
    rcases hquiet { s with world := world' } with ⟨s', hstop, hworld, hmark⟩
    refine ⟨s', ?_, hmark, ?_, ?_⟩
    · rw [hrun, heq]
      exact hstop
    · rw [written, written, hworld, hout]
    · rw [written, hworld, hout]
      exact hsame s

include hmarked

theorem scratchAlloc_fail_truncates (bytes : Nat) :
    Truncates (written out) marked .failed (scratchAlloc core bytes fail)
      (scratchAlloc core' bytes fail) :=
  scratchAlloc_truncates hcore bytes fun s =>
    ⟨{ s with writeFailed := true }, rfl, rfl, hmarked _ rfl⟩

/-- A write that has failed is marked. -/
theorem exportWriteAll_truncates (data : Bytes) :
    Truncates (written out) marked .failed (exportWriteAll core data)
      (exportWriteAll core' data) := by
  have hwrite : Truncates (written out) marked .failed
      (callCore (core.writeBytes data) >>= fun written => if written then pure () else fail)
      (callCore (core'.writeBytes data) >>= fun written => if written then pure () else fail) := by
    have hends : ∀ done : Bool, Truncates (written out) marked .failed
        (if done then pure () else fail : ExportM σ Unit) (if done then pure () else fail) :=
      fun _ => .ite (.pure ()) fail_truncates
    have happends : Appends (written out)
        (callCore (core.writeBytes data) >>= fun written => if written then pure () else fail) :=
      Appends.bind (fun s => hcore.appends data s.world) fun done => (hends done).1
    refine ⟨happends, ?_⟩
    intro s
    have hrun : ∀ core : Core σ,
        (callCore (core.writeBytes data) >>= fun written =>
          if written then pure () else fail : ExportM σ Unit) s =
        (if (core.writeBytes data s.world).1 then pure () else fail : ExportM σ Unit)
          { s with world := (core.writeBytes data s.world).2 } := fun _ => rfl
    rcases hcore.writes data s.world with heq | ⟨world', heq, hbefore, hbehind⟩
    · left
      rw [hrun, hrun, heq]
    · right
      refine ⟨{ world := world', writeFailed := true }, ?_, hmarked _ rfl, hbefore, ?_⟩
      · rw [hrun, heq]
        rfl
      · rw [hrun]
        cases hdone : (core.writeBytes data s.world).1 with
        | true => exact hbehind
        | false => exact hbehind
  refine .bind (.quiet fun _ => rfl) fun s => ?_
  exact .ite (.throw _) (.ite (.pure ()) hwrite)

/-! ## Strings and numbers -/

theorem indentLoop_truncates (total : Nat) :
    Truncates (written out) marked .failed (indentLoop core total) (indentLoop core' total) := by
  induction total using Nat.strongRecOn with
  | ind total ih =>
    rw [indentLoop.eq_def core total, indentLoop.eq_def core' total]
    split
    · exact .bind (exportWriteAll_truncates hcore hmarked _) fun _ => ih _ (by omega)
    · exact .pure ()

variable (options : Option ExportOptions)

theorem writeIndent_truncates (depth : UInt32) :
    Truncates (written out) marked .failed (writeIndent core options depth)
      (writeIndent core' options depth) :=
  .ite (.pure ()) (indentLoop_truncates hcore hmarked _)

theorem writeNewline_truncates :
    Truncates (written out) marked .failed (writeNewline core options)
      (writeNewline core' options) :=
  .ite (.pure ()) (exportWriteAll_truncates hcore hmarked _)

theorem hexEscape_truncates (codepoint : UInt32) :
    Truncates (written out) marked .failed (hexEscape core codepoint)
      (hexEscape core' codepoint) := by
  rw [hexEscape, hexEscape]
  exact .bind (formatted_truncates hmarked (hcore.formatHexadecimal _ _ _)) fun digits =>
    .bind (exportWriteAll_truncates hcore hmarked _) fun _ =>
      exportWriteAll_truncates hcore hmarked _

theorem writePiece_truncates (piece : JsonPiece) :
    Truncates (written out) marked .failed (writePiece core piece) (writePiece core' piece) := by
  cases piece with
  | bytes bytes => exact exportWriteAll_truncates hcore hmarked bytes
  | escape codepoint => exact hexEscape_truncates hcore hmarked codepoint
  | surrogates high low =>
    exact .bind (hexEscape_truncates hcore hmarked high) fun _ =>
      hexEscape_truncates hcore hmarked low

theorem jsonStringLoop_truncates (data : Bytes) (length index : Nat) :
    Truncates (written out) marked .failed (jsonStringLoop core options data length index)
      (jsonStringLoop core' options data length index) := by
  induction hleft : length - index using Nat.strongRecOn generalizing index with
  | ind left ih =>
    rw [jsonStringLoop, jsonStringLoop]
    split
    · cases hpiece : jsonPiece (asciiOnlyOf options) (data.drop index) (length - index) with
      | no => exact fail_truncates
      | fault => exact .throw _
      | ok done =>
        obtain ⟨piece, consumed⟩ := done
        have hpos := jsonPiece_pos hpiece
        exact .bind (writePiece_truncates hcore hmarked piece) fun _ =>
          ih _ (by omega) (index + consumed) rfl
    · exact .pure ()

theorem writeJsonString_truncates (data : Bytes) (length : Nat) :
    Truncates (written out) marked .failed (writeJsonString core options data length)
      (writeJsonString core' options data length) :=
  .bind (exportWriteAll_truncates hcore hmarked _) fun _ =>
    .bind (jsonStringLoop_truncates hcore hmarked options data length 0) fun _ =>
      exportWriteAll_truncates hcore hmarked _

theorem writeNumberInt64_truncates (value : Int64) :
    Truncates (written out) marked .failed (writeNumberInt64 core value)
      (writeNumberInt64 core' value) :=
  .bind (formatted_truncates hmarked (hcore.formatSigned _ _)) fun _ =>
    exportWriteAll_truncates hcore hmarked _

theorem writeNumberUint64_truncates (value : UInt64) :
    Truncates (written out) marked .failed (writeNumberUint64 core value)
      (writeNumberUint64 core' value) :=
  .bind (formatted_truncates hmarked (hcore.formatUnsigned _ _)) fun _ =>
    exportWriteAll_truncates hcore hmarked _

theorem writeNumberFloat64_truncates (bits : UInt64) :
    Truncates (written out) marked .failed (writeNumberFloat64 core bits)
      (writeNumberFloat64 core' bits) := by
  refine .ite (exportWriteAll_truncates hcore hmarked _) ?_
  exact .bind (formatted_truncates hmarked (hcore.formatDouble _ _)) fun _ =>
    .bind (exportWriteAll_truncates hcore hmarked _) fun _ =>
      .ite (.pure ()) (exportWriteAll_truncates hcore hmarked _)

/-! ## JSON -/

variable (r : Reader)

omit hmarked in
/-- A sort that both runs do in the same way. -/
theorem sortEntries_truncates {α : Type} (less : α → α → Outcome Bool) (entries : List α) :
    Truncates (written out) marked .failed (sortEntries core less entries)
      (sortEntries core' less entries) := by
  unfold sortEntries
  rw [hcore.sorts]
  exact .ite (.throw _) (.pure _)

omit hmarked in
theorem arrangeEntries_truncates (entries : List SortEntry) :
    Truncates (written out) marked .failed (arrangeEntries core options r entries)
      (arrangeEntries core' options r entries) :=
  .ite (sortEntries_truncates hcore _ entries) (sortEntries_truncates hcore _ entries)

section

variable {child child' : UInt64 → UInt32 → ExportM σ Unit}
  (hchild : ∀ offset depth,
    Truncates (written out) marked .failed (child offset depth) (child' offset depth))

include hchild

theorem exportEntriesLoop_truncates (depth : UInt32) (first : Bool) (entries : List SortEntry) :
    Truncates (written out) marked .failed
      (exportEntriesLoop core options r child depth first entries)
      (exportEntriesLoop core' options r child' depth first entries) := by
  induction entries generalizing first with
  | nil => exact .pure ()
  | cons entry entries ih =>
    have hwrite := fun data => exportWriteAll_truncates hcore hmarked data
    have hvalue := (hchild entry.valueOffset depth).bind fun _ => ih false
    have hmember := fun data => (hwrite data).bind fun _ => hvalue
    have hkey := (writeIndent_truncates hcore hmarked options depth).bind fun _ =>
      (writeJsonString_truncates hcore hmarked options (r.base.from (entry.keyPoolOffset + 4))
        entry.keyLength.toNat).bind fun _ =>
          Truncates.ite (c := indentSpacesOf options = 0) (hmember [0x3A]) (hmember [0x3A, 0x20])
    rw [exportEntriesLoop, exportEntriesLoop]
    refine .ite ?_ hkey
    exact .bind (hwrite [0x2C]) fun _ =>
      .bind (writeNewline_truncates hcore hmarked options) fun _ => hkey

theorem exportElementsLoop_truncates (depth : UInt32) (first : Bool) (count : Nat)
    (offset : UInt64) :
    Truncates (written out) marked .failed
      (exportElementsLoop core options r child depth first count offset)
      (exportElementsLoop core' options r child' depth first count offset) := by
  induction count generalizing first offset with
  | zero => exact .pure ()
  | succ count ih =>
    have helement := (writeIndent_truncates hcore hmarked options depth).bind fun _ =>
      Truncates.bind (fromReader_truncates (loadU64 r.base offset)) fun valueOffset =>
        (hchild valueOffset depth).bind fun _ => ih false (offset + arrayElementSize)
    rw [exportElementsLoop, exportElementsLoop]
    refine .ite ?_ helement
    exact .bind (exportWriteAll_truncates hcore hmarked _) fun _ =>
      .bind (writeNewline_truncates hcore hmarked options) fun _ => helement

theorem exportBlock_truncates (offset : UInt64) (depth : UInt32) :
    Truncates (written out) marked .failed (exportBlock core options r child offset depth)
      (exportBlock core' options r child' offset depth) := by
  have hwrite := fun data => exportWriteAll_truncates hcore hmarked data
  have hnewline := writeNewline_truncates hcore hmarked options
  refine .bind (fromReader_truncates _) fun body => .ite (hwrite _) ?_
  exact .bind (hwrite _) fun _ => .bind hnewline fun _ =>
    .bind (scratchAlloc_fail_truncates hcore hmarked _) fun _ =>
    .bind (fromReader_truncates _) fun entries =>
    .bind (arrangeEntries_truncates hcore options r entries) fun entries =>
    .bind (exportEntriesLoop_truncates hcore hmarked options r hchild _ _ entries) fun _ =>
    .bind hnewline fun _ => .bind (writeIndent_truncates hcore hmarked options depth) fun _ =>
    hwrite _

theorem exportArray_truncates (offset : UInt64) (depth : UInt32) :
    Truncates (written out) marked .failed (exportArray core options r child offset depth)
      (exportArray core' options r child' offset depth) := by
  have hwrite := fun data => exportWriteAll_truncates hcore hmarked data
  have hnewline := writeNewline_truncates hcore hmarked options
  refine .bind (fromReader_truncates _) fun body => .ite (hwrite _) ?_
  exact .bind (hwrite _) fun _ => .bind hnewline fun _ =>
    .bind (exportElementsLoop_truncates hcore hmarked options r hchild _ _ _ _) fun _ =>
    .bind hnewline fun _ => .bind (writeIndent_truncates hcore hmarked options depth) fun _ =>
    hwrite _

end

theorem exportValue_truncates (levels : Nat) (offset : UInt64) (depth : UInt32) :
    Truncates (written out) marked .failed (exportValue core options r levels offset depth)
      (exportValue core' options r levels offset depth) := by
  induction levels generalizing offset depth with
  | zero => exact .throw _
  | succ levels ih =>
    refine .bind (fromReader_truncates _) fun kind => ?_
    cases kind with
    | null => exact exportWriteAll_truncates hcore hmarked _
    | false => exact exportWriteAll_truncates hcore hmarked _
    | true => exact exportWriteAll_truncates hcore hmarked _
    | int64 =>
      exact .bind (fromReader_truncates _) fun value =>
        writeNumberInt64_truncates hcore hmarked value
    | uint64 =>
      exact .bind (fromReader_truncates _) fun value =>
        writeNumberUint64_truncates hcore hmarked value
    | float64 =>
      exact .bind (fromReader_truncates _) fun bits =>
        writeNumberFloat64_truncates hcore hmarked bits
    | string =>
      exact .bind (fromReader_truncates _) fun range =>
        writeJsonString_truncates hcore hmarked options _ _
    | block => exact exportBlock_truncates hcore hmarked options r ih offset depth
    | array => exact exportArray_truncates hcore hmarked options r ih offset depth

omit hmarked in
theorem exportRoots_truncates (levels : Nat) :
    Truncates (written out) (fun _ => True) .failed (exportRoots core options r levels)
      (exportRoots core' options r levels) := by
  have hmark : ∀ s : ExportState σ, s.writeFailed = true → True := fun _ _ => trivial
  have hwrite := fun data => exportWriteAll_truncates hcore hmark data
  have hnewline := writeNewline_truncates hcore hmark options
  refine .ite (.bind (hwrite _) fun _ => hnewline) ?_
  exact .bind (hwrite _) fun _ => .bind hnewline fun _ =>
    .bind (scratchAlloc_truncates hcore _ fun s => ⟨s, rfl, rfl, trivial⟩) fun _ =>
    .bind (fromReader_truncates _) fun entries =>
    .bind (arrangeEntries_truncates hcore options r entries) fun entries =>
    .bind (exportEntriesLoop_truncates hcore hmark options r
      (exportValue_truncates hcore hmark options r levels) _ _ entries) fun _ =>
    .bind hnewline fun _ => .bind (hwrite _) fun _ => hnewline

/-! ## INI -/

theorem iniWriteByte_truncates (c : UInt8) :
    Truncates (written out) marked .failed (iniWriteByte core c) (iniWriteByte core' c) := by
  have hwrite := fun data => exportWriteAll_truncates hcore hmarked data
  unfold iniWriteByte
  cases iniEscape c with
  | some chunk => exact hwrite chunk
  | none =>
    refine .ite ?_ (hwrite _)
    exact .bind (formatted_truncates hmarked (hcore.formatHexadecimal _ _ _)) fun digits =>
      .bind (hwrite _) fun _ => hwrite _

theorem iniEscapedLoop_truncates (data : Bytes) (length i : Nat) :
    Truncates (written out) marked .failed (iniEscapedLoop core data length i)
      (iniEscapedLoop core' data length i) := by
  induction hleft : length - i using Nat.strongRecOn generalizing i with
  | ind left ih =>
    rw [iniEscapedLoop.eq_def core data length i, iniEscapedLoop.eq_def core' data length i]
    split
    · cases data[i]? with
      | none => exact .throw _
      | some c =>
        exact .bind (iniWriteByte_truncates hcore hmarked c) fun _ => ih _ (by omega) (i + 1) rfl
    · exact .pure ()

theorem iniWriteEscaped_truncates (data : Bytes) (length : Nat) :
    Truncates (written out) marked .failed (iniWriteEscaped core data length)
      (iniWriteEscaped core' data length) :=
  .bind (exportWriteAll_truncates hcore hmarked _) fun _ =>
    .bind (iniEscapedLoop_truncates hcore hmarked data length 0) fun _ =>
      exportWriteAll_truncates hcore hmarked _

theorem iniWriteKey_truncates (entry : IniSortEntry) :
    Truncates (written out) marked .failed (iniWriteKey core r entry)
      (iniWriteKey core' r entry) :=
  .bind (fromReader_truncates _) fun _ => exportWriteAll_truncates hcore hmarked _

omit hmarked in
theorem iniArrangeEntries_truncates (entries : List IniSortEntry) :
    Truncates (written out) marked .failed (iniArrangeEntries core options r entries)
      (iniArrangeEntries core' options r entries) :=
  .ite (sortEntries_truncates hcore _ entries) (.pure entries)

variable (hdoubles : core'.formatDouble = core.formatDouble)

include hdoubles

/-- A formatter of doubles that refuses is not marked. -/
theorem iniWriteFloat_truncates (bits : UInt64) :
    Truncates (written out) marked .failed (iniWriteFloat core bits)
      (iniWriteFloat core' bits) := by
  rw [iniWriteFloat, iniWriteFloat, hdoubles]
  refine .ite (exportWriteAll_truncates hcore hmarked _) ?_
  refine .bind (callCore_truncates (hcore.formatDouble _ _).keeps) fun result => ?_
  cases result with
  | some text => exact exportWriteAll_truncates hcore hmarked text
  | none => exact .throw _

theorem iniWriteScalarValue_truncates (offset : UInt64) :
    Truncates (written out) marked .failed (iniWriteScalarValue core r offset)
      (iniWriteScalarValue core' r offset) := by
  refine .bind (fromReader_truncates _) fun kind => ?_
  cases kind with
  | null => exact exportWriteAll_truncates hcore hmarked _
  | false => exact exportWriteAll_truncates hcore hmarked _
  | true => exact exportWriteAll_truncates hcore hmarked _
  | int64 =>
    refine .bind (fromReader_truncates _) fun value => ?_
    exact .bind (formatted_truncates hmarked (hcore.formatSigned _ _)) fun _ =>
      exportWriteAll_truncates hcore hmarked _
  | uint64 =>
    refine .bind (fromReader_truncates _) fun value => ?_
    exact .bind (formatted_truncates hmarked (hcore.formatUnsigned _ _)) fun _ =>
      exportWriteAll_truncates hcore hmarked _
  | float64 =>
    exact .bind (fromReader_truncates _) fun bits =>
      iniWriteFloat_truncates hcore hmarked hdoubles bits
  | string =>
    exact .bind (fromReader_truncates _) fun range => iniWriteEscaped_truncates hcore hmarked _ _
  | block => exact .throw _
  | array => exact .throw _

theorem iniElementsLoop_truncates (entry : IniSortEntry) (count : Nat) (offset : UInt64) :
    Truncates (written out) marked .failed (iniElementsLoop core r entry count offset)
      (iniElementsLoop core' r entry count offset) := by
  induction count generalizing offset with
  | zero => exact .pure ()
  | succ count ih =>
    exact .bind (fromReader_truncates _) fun elementOffset =>
      .bind (fromReader_truncates _) fun elementKind => .ite fail_truncates <|
        .bind (iniWriteKey_truncates hcore hmarked r entry) fun _ =>
        .bind (exportWriteAll_truncates hcore hmarked _) fun _ =>
        .bind (iniWriteScalarValue_truncates hcore hmarked r hdoubles elementOffset) fun _ =>
        .bind (exportWriteAll_truncates hcore hmarked _) fun _ => ih _

section

variable {block block' : Bytes → UInt64 → ExportM σ Unit}
  (hblock : ∀ section_ offset,
    Truncates (written out) marked .failed (block section_ offset) (block' section_ offset))

include hblock

theorem iniEmitEntry_truncates (section_ : Bytes) (entry : IniSortEntry) :
    Truncates (written out) marked .failed (iniEmitEntry core r block section_ entry)
      (iniEmitEntry core' r block' section_ entry) := by
  have hline := (iniWriteKey_truncates hcore hmarked r entry).bind fun _ =>
    (exportWriteAll_truncates hcore hmarked [0x20, 0x3D, 0x20]).bind fun _ =>
    (iniWriteScalarValue_truncates hcore hmarked r hdoubles entry.valueOffset).bind fun _ =>
    exportWriteAll_truncates hcore hmarked [0x0A]
  refine .bind (fromReader_truncates _) fun kind => ?_
  cases kind with
  | block =>
    exact .bind (scratchAlloc_fail_truncates hcore hmarked _) fun _ =>
      .bind (fromReader_truncates _) fun key => hblock _ _
  | array =>
    exact .bind (fromReader_truncates _) fun body =>
      iniElementsLoop_truncates hcore hmarked r hdoubles entry _ _
  | null => exact hline
  | false => exact hline
  | true => exact hline
  | int64 => exact hline
  | uint64 => exact hline
  | float64 => exact hline
  | string => exact hline

theorem iniEntriesLoop_truncates (section_ : Bytes) (bytes : Nat)
    (entries blocks : List IniSortEntry) :
    Truncates (written out) marked .failed
      (iniEntriesLoop core r block section_ bytes entries blocks)
      (iniEntriesLoop core' r block' section_ bytes entries blocks) := by
  induction entries generalizing blocks with
  | nil => exact .pure blocks
  | cons entry entries ih =>
    rw [iniEntriesLoop, iniEntriesLoop]
    refine .bind (fromReader_truncates _) fun kind => .ite ?_ ?_
    · exact .ite (.bind (scratchAlloc_fail_truncates hcore hmarked _) fun _ => ih _) (ih _)
    · exact (iniEmitEntry_truncates hcore hmarked r hdoubles hblock section_ entry).bind fun _ => ih _

theorem iniBlocksLoop_truncates (section_ : Bytes) (blocks : List IniSortEntry) :
    Truncates (written out) marked .failed (iniBlocksLoop core r block section_ blocks)
      (iniBlocksLoop core' r block' section_ blocks) := by
  induction blocks with
  | nil => exact .pure ()
  | cons entry blocks ih =>
    exact (iniEmitEntry_truncates hcore hmarked r hdoubles hblock section_ entry).bind fun _ => ih

end

theorem iniEmitBlock_truncates (levels : Nat) (section_ : Bytes) (offset : UInt64) :
    Truncates (written out) marked .failed (iniEmitBlock core options r levels section_ offset)
      (iniEmitBlock core' options r levels section_ offset) := by
  induction levels generalizing section_ offset with
  | zero => exact .throw _
  | succ levels ih =>
    have hwrite := fun data => exportWriteAll_truncates hcore hmarked data
    have hblocks := fun blocks => Truncates.ite (c := blocks ≠ [])
      ((hwrite [0x0A]).bind fun _ => iniBlocksLoop_truncates hcore hmarked r hdoubles ih section_ blocks)
      (.pure ())
    have hloops := fun bytes entries =>
      (iniEntriesLoop_truncates hcore hmarked r hdoubles ih section_ bytes entries []).bind hblocks
    have hheader := fun bytes entries => Truncates.ite (c := section_.length ≠ 0)
      ((hwrite [0x5B]).bind fun _ => (hwrite section_).bind fun _ =>
        (hwrite [0x5D, 0x0A]).bind fun _ => hloops bytes entries) (hloops bytes entries)
    have harranged := fun (c : Prop) [Decidable c] bytes entries => Truncates.ite (c := c)
      ((iniArrangeEntries_truncates hcore options r entries).bind
        (hheader bytes))
      ((Truncates.pure entries).bind (hheader bytes))
    rw [iniEmitBlock, iniEmitBlock]
    refine .bind (fromReader_truncates _) fun body => .ite ?_ ?_
    · exact .bind (scratchAlloc_fail_truncates hcore hmarked _) fun _ =>
        .bind (fromReader_truncates _) fun entries => harranged _ _ entries
    · exact .bind (fromReader_truncates _) fun entries => harranged _ _ entries

end

/-! ## Ends -/

/-- A run that ends in the return of `false`: with a mark, or in a function that has failed. -/
def Failing {α : Type} : EStateM.Result ExportStop (ExportState σ) α → Prop
  | .ok _ s => s.writeFailed = true
  | .error stop _ => stop = .failed

/-- The second computation does the same, or it fails behind a part of what the first one writes. -/
def Shortens {α : Type} (out : σ → Bytes) (m m' : ExportM σ α) : Prop :=
  Appends (written out) m ∧ ∀ s, m' s = m s ∨ (Failing (m' s) ∧
    written out s <+: written out (endState (m' s)) ∧
    written out (endState (m' s)) <+: written out (endState (m s)))

section

variable {out : σ → Bytes} {α β : Type}

theorem Shortens.of_truncates {m m' : ExportM σ α}
    (h : Truncates (written out) (fun _ => True) .failed m m') : Shortens out m m' := by
  refine ⟨h.1, ?_⟩
  intro s
  rcases h.2 s with heq | ⟨s', hrun, -, hbefore, hbehind⟩
  · exact .inl heq
  · rw [hrun]
    exact .inr ⟨rfl, hbefore, hbehind⟩

/-- A sequence, the second part of which fails at once behind a mark. -/
theorem Shortens.bind {m m' : ExportM σ α} {f f' : α → ExportM σ β} (hm : Shortens out m m')
    (hf : ∀ a, Shortens out (f a) (f' a))
    (hend : ∀ a s, s.writeFailed = true →
      Failing (f' a s) ∧ written out (endState (f' a s)) = written out s) :
    Shortens out (m >>= f) (m' >>= f') := by
  have hrest : ∀ a, Appends (written out) (f a) := fun a => (hf a).1
  refine ⟨hm.1.bind hrest, ?_⟩
  intro s
  have hbind : (m >>= f) s = EStateM.bind m f s := rfl
  have hbind' : (m' >>= f') s = EStateM.bind m' f' s := rfl
  have hfirst := hm.1 s
  -- what the first part has written is a part of all that the first run writes
  have hthrough := Appends.through hrest m s
  rcases hm.2 s with heq | ⟨hfailing, hbefore, hbehind⟩
  · rw [hbind, hbind', EStateM.bind, EStateM.bind, heq]
    cases hrun : m s with
    | error e s₁ => exact .inl rfl
    | ok a s₁ =>
      rw [hrun] at hfirst
      rcases (hf a).2 s₁ with heq' | ⟨hfailing, hbefore, hbehind⟩
      · exact .inl heq'
      · exact .inr ⟨hfailing, List.IsPrefix.trans hfirst hbefore, hbehind⟩
  · right
    rw [hbind', EStateM.bind]
    cases hrun' : m' s with
    | error e s₁ =>
      rw [hrun'] at hfailing hbefore hbehind
      exact ⟨hfailing, hbefore, hbehind.trans hthrough⟩
    | ok a s₁ =>
      rw [hrun'] at hfailing hbefore hbehind
      rcases hend a s₁ hfailing with ⟨hfailing', hkept⟩
      refine ⟨hfailing', ?_, ?_⟩
      · rw [hkept]
        exact hbefore
      · rw [hkept]
        exact hbehind.trans hthrough

/-- A sequence, the first part of which returns `false` where it fails. -/
theorem Shortens.after {m m' : ExportM σ α} {f f' : α → ExportM σ β}
    (hm : Truncates (written out) (fun _ => True) .failed m m')
    (hf : ∀ a, Shortens out (f a) (f' a)) : Shortens out (m >>= f) (m' >>= f') := by
  have hrest : ∀ a, Appends (written out) (f a) := fun a => (hf a).1
  refine ⟨hm.1.bind hrest, ?_⟩
  intro s
  have hbind : (m >>= f) s = EStateM.bind m f s := rfl
  have hbind' : (m' >>= f') s = EStateM.bind m' f' s := rfl
  have hfirst := hm.1 s
  have hthrough := Appends.through hrest m s
  rcases hm.2 s with heq | ⟨s', hrun', -, hbefore, hbehind⟩
  · rw [hbind, hbind', EStateM.bind, EStateM.bind, heq]
    cases hrun : m s with
    | error e s₁ => exact .inl rfl
    | ok a s₁ =>
      rw [hrun] at hfirst
      rcases (hf a).2 s₁ with heq' | ⟨hfailing, hbefore, hbehind⟩
      · exact .inl heq'
      · exact .inr ⟨hfailing, List.IsPrefix.trans hfirst hbefore, hbehind⟩
  · rw [hbind', EStateM.bind, hrun']
    exact .inr ⟨rfl, hbefore, hbehind.trans hthrough⟩

theorem Shortens.ite {c : Prop} [Decidable c] {m₁ m₂ m₁' m₂' : ExportM σ α}
    (h₁ : Shortens out m₁ m₁') (h₂ : Shortens out m₂ m₂') :
    Shortens out (if c then m₁ else m₂) (if c then m₁' else m₂') := by
  split
  · exact h₁
  · exact h₂

/-- What is attempted is marked where it has failed. -/
theorem attempt_shortens {m m' : ExportM σ Unit}
    (h : Truncates (written out) (fun s => s.writeFailed = true) .failed m m') :
    Shortens out (attempt m) (attempt m') := by
  have hend : ∀ {m : ExportM σ Unit} s, endState (attempt m s) = endState (m s) := by
    intro m s
    rw [attempt]
    cases m s with
    | ok a s₁ => rfl
    | error e s₁ => cases e <;> rfl
  refine ⟨fun s => ?_, fun s => ?_⟩
  · rw [hend]
    exact h.1 s
  · rw [hend, hend]
    rcases h.2 s with heq | ⟨s', hrun, hmark, hbefore, hbehind⟩
    · left
      rw [attempt, attempt, heq]
    · right
      rw [attempt, hrun]
      exact ⟨hmark, hbefore, hbehind⟩

theorem exportEnd_world (m : ExportM σ Unit) (world : σ) :
    (exportEnd m world).2 = (endState (m { world, writeFailed := false })).world := by
  cases hrun : m { world, writeFailed := false } with
  | ok a s => rw [exportEnd_ok hrun, endState]
  | error e s => rw [exportEnd_error hrun, endState]

theorem exportEnd_cutShort {m m' : ExportM σ Unit} (h : Shortens out m m') (world : σ) :
    CutShort out world (exportEnd m world) (exportEnd m' world) := by
  rcases h.2 { world, writeFailed := false } with heq | ⟨hfailing, hbefore, hbehind⟩
  · left
    have hrun : m'.run { world, writeFailed := false } =
        m.run { world, writeFailed := false } := heq
    rw [exportEnd, exportEnd, hrun]
  · right
    rw [exportEnd_world, exportEnd_world]
    refine ⟨?_, hbefore, hbehind⟩
    cases hrun : m' { world, writeFailed := false } with
    | ok a s =>
      rw [hrun, Failing] at hfailing
      rw [exportEnd_ok hrun, hfailing]
      rfl
    | error e s =>
      rw [hrun, Failing] at hfailing
      rw [exportEnd_error hrun, if_pos hfailing]

end

/-! ## The root index of INI -/

section

variable (core : Core σ) (r : Reader) (block : Bytes → UInt64 → ExportM σ Unit)

/-- Behind a mark nothing more of the root index is emitted. -/
theorem iniRootLoop_marked (bytes : Nat) (entries blocks : List IniSortEntry)
    {s : ExportState σ} (hs : s.writeFailed = true) :
    iniRootLoop core r block bytes entries blocks s = .ok blocks s := by
  cases entries with
  | nil => rfl
  | cons entry entries =>
    have hget : iniRootLoop core r block bytes (entry :: entries) blocks s =
        (if s.writeFailed then pure blocks else _ : ExportM σ (List IniSortEntry)) s := rfl
    rw [hget, if_pos hs]
    rfl

theorem iniRootBlocksLoop_marked (blocks : List IniSortEntry) {s : ExportState σ}
    (hs : s.writeFailed = true) : iniRootBlocksLoop core r block blocks s = .ok () s := by
  cases blocks with
  | nil => rfl
  | cons entry blocks =>
    have hget : iniRootBlocksLoop core r block (entry :: blocks) s =
        (if s.writeFailed then pure () else _ : ExportM σ Unit) s := rfl
    rw [hget, if_pos hs]
    rfl

end

section

variable {out : σ → Bytes} {core core' : Core σ} (hcore : FailsEarlier out core core')
  (r : Reader)

include hcore

/-- The array for the blocks of the root index: without it the loop breaks, with a mark. -/
theorem rootAllocate_shortens (bytes : Nat) {m m' : ExportM σ (List IniSortEntry)}
    (h : Shortens out m m') (blocks : List IniSortEntry) :
    Shortens out
      (callCore (core.allocate bytes) >>= fun allocated =>
        if allocated then m else breakFailed blocks)
      (callCore (core'.allocate bytes) >>= fun allocated =>
        if allocated then m' else breakFailed blocks) := by
  have hbreak : Shortens out (breakFailed blocks : ExportM σ (List IniSortEntry))
      (breakFailed blocks) := .of_truncates (.quiet fun _ => rfl)
  have hsame : Shortens out
      (callCore (core.allocate bytes) >>= fun allocated =>
        if allocated then m else breakFailed blocks)
      (callCore (core.allocate bytes) >>= fun allocated =>
        if allocated then m' else breakFailed blocks) :=
    .after (callCore_truncates (hcore.allocate_keeps bytes))
      fun allocated => .ite h hbreak
  refine ⟨hsame.1, ?_⟩
  intro s
  rcases hcore.allocates bytes s.world with heq | ⟨world', heq, hout⟩
  · have hrun : (callCore (core'.allocate bytes) >>= fun allocated =>
        if allocated then m' else breakFailed blocks : ExportM σ (List IniSortEntry)) s =
        (callCore (core.allocate bytes) >>= fun allocated =>
          if allocated then m' else breakFailed blocks : ExportM σ (List IniSortEntry)) s := by
      change (if (core'.allocate bytes s.world).1 then m' else breakFailed blocks)
          { s with world := (core'.allocate bytes s.world).2 } =
        (if (core.allocate bytes s.world).1 then m' else breakFailed blocks)
          { s with world := (core.allocate bytes s.world).2 }
      rw [heq]
    rw [hrun]
    exact hsame.2 s
  · right
    have hrun : (callCore (core'.allocate bytes) >>= fun allocated =>
        if allocated then m' else breakFailed blocks : ExportM σ (List IniSortEntry)) s =
        .ok blocks { world := world', writeFailed := true } := by
      change (if (core'.allocate bytes s.world).1 then m' else breakFailed blocks)
          { s with world := (core'.allocate bytes s.world).2 } = _
      rw [heq]
      rfl
    have hkept : out world' = written out s := hout
    rw [hrun]
    refine ⟨rfl, ?_, ?_⟩
    · rw [endState, written, written, hout]
    · rw [endState, written, hkept]
      exact hsame.1 s

variable (hdoubles : core'.formatDouble = core.formatDouble)

include hdoubles

section

variable {block block' : Bytes → UInt64 → ExportM σ Unit}
  (hblock : ∀ section_ offset, Truncates (written out) (fun s => s.writeFailed = true) .failed
    (block section_ offset) (block' section_ offset))

include hblock

theorem iniRootLoop_shortens (bytes : Nat) (entries blocks : List IniSortEntry) :
    Shortens out (iniRootLoop core r block bytes entries blocks)
      (iniRootLoop core' r block' bytes entries blocks) := by
  induction entries generalizing blocks with
  | nil => exact .of_truncates (.pure blocks)
  | cons entry entries ih =>
    have hstopped : ∀ emitted s, s.writeFailed = true →
        (if emitted = true then iniRootLoop core' r block' bytes entries blocks
          else pure blocks : ExportM σ (List IniSortEntry)) s = .ok blocks s := by
      intro emitted s hs
      split
      · exact iniRootLoop_marked core' r block' bytes entries blocks hs
      · rfl
    have hentry : Shortens out
        (attempt (iniEmitEntry core r block [] entry) >>= fun emitted =>
          if emitted then iniRootLoop core r block bytes entries blocks else pure blocks)
        (attempt (iniEmitEntry core' r block' [] entry) >>= fun emitted =>
          if emitted then iniRootLoop core' r block' bytes entries blocks else pure blocks) := by
      apply Shortens.bind
      · exact attempt_shortens
          (iniEmitEntry_truncates hcore (fun _ h => h) r hdoubles hblock [] entry)
      · intro emitted
        exact .ite (ih blocks) (.of_truncates (.pure blocks))
      · intro emitted s hs
        rw [hstopped emitted s hs]
        exact ⟨hs, rfl⟩
    rw [iniRootLoop, iniRootLoop]
    refine Shortens.after (.quiet fun _ => rfl) fun s => .ite ?_ ?_
    · exact .of_truncates (.pure blocks)
    · cases kindAt r entry.valueOffset with
      | fault => exact .of_truncates (.throw _)
      | no => exact .of_truncates (.quiet fun _ => rfl)
      | ok kind =>
        refine .ite (.ite ?_ ?_) hentry
        · exact rootAllocate_shortens hcore bytes (ih (blocks ++ [entry])) blocks
        · refine Shortens.after (.pure true) fun allocated => ?_
          exact .ite (ih _) (.of_truncates (.quiet fun _ => rfl))

theorem iniRootBlocksLoop_shortens (blocks : List IniSortEntry) :
    Shortens out (iniRootBlocksLoop core r block blocks)
      (iniRootBlocksLoop core' r block' blocks) := by
  have hdone : Shortens out (pure () : ExportM σ Unit) (pure ()) :=
    .of_truncates (.pure ())
  induction blocks with
  | nil => exact hdone
  | cons entry blocks ih =>
    have hstopped : ∀ emitted s, s.writeFailed = true →
        (if emitted = true then iniRootBlocksLoop core' r block' blocks
          else pure () : ExportM σ Unit) s = .ok () s := by
      intro emitted s hs
      split
      · exact iniRootBlocksLoop_marked core' r block' blocks hs
      · rfl
    refine Shortens.after (.quiet fun _ => rfl) fun s => .ite hdone ?_
    apply Shortens.bind
    · exact attempt_shortens (iniEmitEntry_truncates hcore (fun _ h => h) r hdoubles hblock [] entry)
    · intro emitted
      exact .ite ih hdone
    · intro emitted s hs
      rw [hstopped emitted s hs]
      exact ⟨hs, rfl⟩

end

theorem iniRoots_shortens (options : Option ExportOptions) (levels : Nat) :
    Shortens out (iniRoots core options r levels) (iniRoots core' options r levels) := by
  have hblock := fun section_ offset => iniEmitBlock_truncates hcore (fun _ h => h) options r
    hdoubles levels section_ offset
  have hloops := fun entries => Shortens.bind
    (iniRootLoop_shortens hcore r hdoubles hblock (r.header.rootCount * 24).toNat entries [])
    (iniRootBlocksLoop_shortens hcore r hdoubles hblock)
  refine .ite (.of_truncates (.pure ())) ?_
  refine .after (scratchAlloc_truncates hcore _ fun s => ⟨s, rfl, rfl, trivial⟩) fun _ => ?_
  refine .after (fromReader_truncates _) fun entries => ?_
  refine .after (iniArrangeEntries_truncates hcore options r entries)
    fun entries => ?_
  apply hloops
  intro blocks s hs
  rw [iniRootBlocksLoop_marked core' r _ blocks hs]
  exact ⟨hs, rfl⟩

/-! ## Exports -/

omit hdoubles in
theorem exportJsonEx_cutShort (levels : Nat) (options : Option ExportOptions) (world : σ) :
    CutShort out world (exportJsonEx core levels r options world)
      (exportJsonEx core' levels r options world) :=
  exportEnd_cutShort (.of_truncates (exportRoots_truncates hcore options r levels)) world

omit hdoubles in
/-- Where the sink, the allocator or a formatter fails earlier than it might, an export to JSON is the
same, or it returns `false` and has written a part of what it would have written; and so is an
export to INI, where the formatter of doubles does not. -/
theorem exports_cut_short (levels : Nat) (options : Option ExportOptions) (world : σ) :
    CutShort out world (exportJsonEx core levels r options world)
      (exportJsonEx core' levels r options world) ∧
    (core'.formatDouble = core.formatDouble →
      CutShort out world (exportIniEx core levels r options world)
        (exportIniEx core' levels r options world)) := by
  constructor
  · exact exportJsonEx_cutShort hcore r levels options world
  · intro hdoubles
    exact exportEnd_cutShort (iniRoots_shortens hcore r hdoubles options levels) world

end

/-! ## A sink with a limit -/

/-- A sink that has room for so many bytes. The write that goes beyond fills it and fails. -/
def limitedCore (capacity : Nat) : Core Bytes :=
  { plainCore with
    writeBytes := fun data written =>
      if written.length + data.length ≤ capacity then (true, written ++ data)
      else (false, written ++ data.take (capacity - written.length)) }

theorem limitedCore_failsEarlier (capacity : Nat) :
    FailsEarlier id plainCore (limitedCore capacity) where
  appends data written := List.prefix_append written data
  writes := by
    intro data written
    by_cases hroom : written.length + data.length ≤ capacity
    · exact .inl (if_pos hroom)
    · refine .inr ⟨written ++ data.take (capacity - written.length), if_neg hroom, ?_, ?_⟩
      · exact List.prefix_append _ _
      · exact (List.prefix_append_right_inj written).mpr (List.take_prefix _ _)
  allocate_keeps _ _ := rfl
  allocates _ _ := .inl rfl
  formatSigned _ _ := .refl fun _ => rfl
  formatUnsigned _ _ := .refl fun _ => rfl
  formatHexadecimal _ _ _ := .refl fun _ => rfl
  formatDouble _ _ := .refl fun _ => rfl
  sorts _ _ := rfl

/-- With room for three bytes, the export of the file with a key behind its end does not come to the
key. -/
theorem exports_cut_short_limited : ∃ r : Reader, openBuffer true straying = .ok r ∧
    (CutShort id [] (exportJsonEx plainCore 2 r (some ⟨0, false, false⟩) [])
        (exportJsonEx (limitedCore 3) 2 r (some ⟨0, false, false⟩) []) ∧
      CutShort id [] (exportIniEx plainCore 2 r (some ⟨0, false, false⟩) [])
        (exportIniEx (limitedCore 3) 2 r (some ⟨0, false, false⟩) [])) ∧
    (exportJsonEx plainCore 2 r (some ⟨0, false, false⟩) []).1 = .error .fault ∧
    exportJsonEx (limitedCore 3) 2 r (some ⟨0, false, false⟩) [] =
      (.ok false, ascii ['{', '"', 'a']) := by
  obtain ⟨hjson, hini⟩ := exports_cut_short (limitedCore_failsEarlier 3)
    ⟨straying, (nested (fun _ => 0) 0xFFFFFFF0).header fun _ => 0⟩ 2 (some ⟨0, false, false⟩) []
  refine ⟨⟨straying, (nested (fun _ => 0) 0xFFFFFFF0).header fun _ => 0⟩, Parts.opened rfl,
    ⟨hjson, hini rfl⟩, ?_, ?_⟩
  · decide +kernel
  · decide +kernel

end Hrbl
