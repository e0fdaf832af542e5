import Hrbl.Lib.Additions
import Hrbl.Truncating
import Hrbl.Utf8

/-!
# The characters of a JSON export

Whatever a file has in it, what an export to JSON writes has no byte below a space in it but the
line feeds of the indentation, and with `ascii_only` nothing but ASCII. This is so for every run,
also for one that fails.
-/

namespace Hrbl

open Lib Lib.Outcome

variable {σ : Type}

/-! ## Characters -/

/-- An ASCII character from the space on. -/
def Printable (c : UInt8) : Prop := 0x20 ≤ c.toNat ∧ c.toNat < 0x80

instance (c : UInt8) : Decidable (Printable c) := inferInstanceAs (Decidable (_ ∧ _))

/-- A byte of a string as an export writes it. -/
def Clean (asciiOnly : Bool) (c : UInt8) : Prop :=
  0x20 ≤ c.toNat ∧ (asciiOnly = true → c.toNat < 0x80)

/-- What an export writes: clean bytes, and line feeds where it indents. -/
def Allowed (options : Option ExportOptions) (c : UInt8) : Prop :=
  (c = 0x0A ∧ indentSpacesOf options ≠ 0) ∨ Clean (asciiOnlyOf options) c

/-- A text of which every character is tested. -/
theorem printable_of_all {text : Bytes} (h : text.all (fun c => 0x20 ≤ c && c < 0x80) = true) :
    ∀ c ∈ text, Printable c := by
  intro c hc
  have htest := List.all_eq_true.mp h c hc
  rw [Bool.and_eq_true, decide_eq_true_eq, decide_eq_true_eq, UInt8.le_iff_toNat_le,
    UInt8.lt_iff_toNat_lt] at htest
  exact htest

theorem Printable.clean {c : UInt8} (h : Printable c) (asciiOnly : Bool) : Clean asciiOnly c :=
  ⟨h.1, fun _ => h.2⟩

theorem Printable.allowed {c : UInt8} (h : Printable c) (options : Option ExportOptions) :
    Allowed options c :=
  .inr (h.clean _)

/-- What is printed with letters turned into upper case is printed. -/
theorem printable_upperHex {digits : Bytes} (h : ∀ c ∈ digits, Printable c) :
    ∀ c ∈ upperHex digits, Printable c := by
  intro c hc
  rcases List.mem_map.mp hc with ⟨digit, hdigit, rfl⟩
  have hprintable := h digit hdigit
  split
  · rename_i hletter
    rcases hletter with ⟨hlow, hhigh⟩
    have hle : (0x61 : UInt8).toNat ≤ digit.toNat := UInt8.le_iff_toNat_le.mp hlow
    have hle' : digit.toNat ≤ (0x66 : UInt8).toNat := UInt8.le_iff_toNat_le.mp hhigh
    have hlow' : (0x61 : UInt8).toNat = 0x61 := rfl
    have hhigh' : (0x66 : UInt8).toNat = 0x66 := rfl
    have hstep : (0x20 : UInt8).toNat = 0x20 := rfl
    have hsub : (digit - 0x20).toNat = digit.toNat - (0x20 : UInt8).toNat :=
      UInt8.toNat_sub_of_le _ _ (UInt8.le_iff_toNat_le.mpr (by omega))
    rw [Printable, hsub]
    omega
  · exact hprintable

/-! ## Strings -/

/-- What a turn of the loop over a string writes as it is. -/
def JsonPiece.Clean (asciiOnly : Bool) : JsonPiece → Prop
  | .bytes text => ∀ c ∈ text, Hrbl.Clean asciiOnly c
  | .escape _ => True
  | .surrogates _ _ => True

theorem jsonReplacement_printable {byte : UInt8} {replacement : Bytes}
    (h : jsonReplacement byte = some replacement) : ∀ c ∈ replacement, Printable c := by
  unfold jsonReplacement at h
  repeat' split at h
  all_goals cases h
  all_goals exact printable_of_all rfl

/-- The bytes behind a lead byte that are read are continuation bytes. -/
theorem utf8Continuation_tails : ∀ {rest : Bytes} {n : Nat} {codepoint codepoint' : UInt32},
    utf8Continuation rest n codepoint = .ok codepoint' → AreTails (rest.take n)
  | rest, 0, codepoint, codepoint', _ => fun b hb => absurd hb List.not_mem_nil
  | [], n + 1, codepoint, codepoint', h => by cases h
  | b :: rest, n + 1, codepoint, codepoint', h => by
    rw [utf8Continuation] at h
    split at h
    · cases h
    · rename_i hb
      rw [List.take_succ_cons]
      intro c hc
      rcases List.mem_cons.mp hc with rfl | hc
      · exact (continuation_eq c).1.mp (not_not.mp hb)
      · exact utf8Continuation_tails h c hc

/-- What is taken for one character has no ASCII byte in it, or is one. -/
theorem exportUtf8Decode_bytes {byte : UInt8} {rest : Bytes} {remaining consumed : Nat}
    {codepoint : UInt32} (hbyte : 0x80 ≤ byte.toNat)
    (h : exportUtf8Decode (byte :: rest) remaining = .ok (codepoint, consumed)) :
    ∀ c ∈ (byte :: rest).take consumed, 0x80 ≤ c.toNat := by
  have hlow : ¬byte < 0x80 := by
    rw [UInt8.lt_iff_toNat_lt]
    have hvalue : (0x80 : UInt8).toNat = 0x80 := rfl
    omega
  unfold exportUtf8Decode at h
  dsimp only at h
  rw [if_neg hlow] at h
  split at h
  · cases h
  · split at h
    · cases h
    · split at h
      · rename_i hcontinued
        cases h
        intro c hc
        rw [List.take_succ_cons] at hc
        rcases List.mem_cons.mp hc with rfl | hc
        · exact hbyte
        · exact (utf8Continuation_tails hcontinued c hc).1
      · cases h
      · cases h

/-- What is written of a string as it is, is clean. -/
theorem jsonPiece_clean {asciiOnly : Bool} {data : Bytes} {remaining consumed : Nat}
    {piece : JsonPiece} (h : jsonPiece asciiOnly data remaining = .ok (piece, consumed)) :
    piece.Clean asciiOnly := by
  unfold jsonPiece at h
  split at h
  · cases h
  · rename_i byte rest
    split at h
    · -- a character with an escape of its own
      rename_i hreplacement
      cases h
      intro c hc
      exact (jsonReplacement_printable hreplacement c hc).clean _
    · have hspace : (0x20 : UInt8).toNat = 0x20 := rfl
      have hlimit : (0x80 : UInt8).toNat = 0x80 := rfl
      split at h
      · cases h
        trivial
      · rename_i hcontrol
        rw [UInt8.lt_iff_toNat_lt] at hcontrol
        split at h
        · rename_i hascii
          rw [UInt8.lt_iff_toNat_lt] at hascii
          cases h
          intro c hc
          rw [List.mem_singleton.mp hc]
          exact ⟨by omega, fun _ => by omega⟩
        · rename_i hascii
          rw [UInt8.lt_iff_toNat_lt] at hascii
          split at h
          · cases h
          · cases h
          · rename_i hdecode
            split at h
            · -- the bytes of a character, which are not ASCII
              rename_i honly
              cases h
              intro c hc
              have hlow := exportUtf8Decode_bytes (by omega) hdecode c hc
              refine ⟨by omega, fun htrue => ?_⟩
              rw [htrue] at honly
              cases honly
            · split at h <;>
              · cases h
                trivial

/-! ## What an export adds -/

/-- A formatter writes nothing, and what it prints is printable. -/
def PrintsAscii (out : σ → Bytes) (call : σ → Option Bytes × σ) : Prop :=
  ∀ world, out (call world).2 = out world ∧
    ∀ text, (call world).1 = some text → ∀ c ∈ text, Printable c

/-- The sink gets a part of each write, whether the write succeeds or not, and numbers are printed
in ASCII. -/
structure Core.AddsWrites (core : Core σ) (out : σ → Bytes) : Prop where
  writeBytes : ∀ data world, ∃ part, part <+: data ∧
    out (core.writeBytes data world).2 = out world ++ part
  allocate : ∀ bytes world, out (core.allocate bytes world).2 = out world
  formatSigned : ∀ size value, PrintsAscii out (core.formatSigned size value)
  formatUnsigned : ∀ size value, PrintsAscii out (core.formatUnsigned size value)
  formatHexadecimal : ∀ size value width,
    PrintsAscii out (core.formatHexadecimal size value width)
  formatDouble : ∀ size bits, PrintsAscii out (core.formatDouble size bits)

section

variable {core : Core σ} {out : σ → Bytes} {options : Option ExportOptions}

/-- A computation of an export adds only what is allowed. -/
abbrev AddsAllowed {α : Type} (out : σ → Bytes) (options : Option ExportOptions)
    (m : ExportM σ α) : Prop :=
  Adds (written out) (Allowed options) (fun _ => True) m

theorem fail_adds {α : Type} {Q : α → Prop} :
    Adds (written out) (Allowed options) Q (fail : ExportM σ α) := by
  apply Adds.quiet
  · intro s
    rfl
  · intro s a s' hrun
    cases hrun

theorem fromReader_adds {α : Type} (outcome : Outcome α) :
    AddsAllowed out options (fromReader outcome : ExportM σ α) := by
  cases outcome with
  | ok a => exact .pure trivial
  | no => exact fail_adds
  | fault => exact .throw _

theorem formatted_adds {call : σ → Option Bytes × σ} (hcall : PrintsAscii out call) :
    Adds (written out) (Allowed options) (fun text => ∀ c ∈ text, Printable c)
      (formatted call) := by
  have hresult : Adds (written out) (Allowed options)
      (fun result => ∀ text, result = some text → ∀ c ∈ text, Printable c) (callCore call) := by
    apply Adds.quiet
    · intro s
      exact (hcall s.world).1
    · intro s result s' hrun
      cases hrun
      exact (hcall s.world).2
  refine hresult.bind fun result hprints => ?_
  cases result with
  | some text => exact .pure (hprints text rfl)
  | none => exact fail_adds

variable (hcore : core.AddsWrites out)

include hcore

theorem scratchAlloc_adds (bytes : Nat) {failed : ExportM σ Unit}
    (hfailed : AddsAllowed out options failed) :
    AddsAllowed out options (scratchAlloc core bytes failed) := by
  have hcall : AddsAllowed out options (callCore (core.allocate bytes)) :=
    .quiet (fun s => hcore.allocate bytes s.world) fun _ _ _ _ => trivial
  exact hcall.bind fun _ _ => .ite (fun _ => .pure trivial) fun _ => hfailed

theorem exportWriteAll_adds {data : Bytes} (hdata : ∀ c ∈ data, Allowed options c) :
    AddsAllowed out options (exportWriteAll core data) := by
  have hwrite : AddsAllowed out options (callCore (core.writeBytes data)) := by
    intro s
    rcases hcore.writeBytes data s.world with ⟨part, hpart, hout⟩
    refine ⟨⟨part, hout, ?_⟩, fun _ _ _ => trivial⟩
    intro c hc
    exact hdata c (hpart.subset hc)
  have hget : AddsAllowed out options (get : ExportM σ (ExportState σ)) :=
    .quiet (fun _ => rfl) fun _ _ _ _ => trivial
  refine hget.bind fun s _ => .ite (fun _ => .throw _) fun _ => ?_
  refine .ite (fun _ => .pure trivial) fun _ => ?_
  exact hwrite.bind fun _ _ => .ite (fun _ => .pure trivial) fun _ => fail_adds

/-- A text of printable characters. -/
theorem exportWriteAll_printable {text : Bytes} (htext : ∀ c ∈ text, Printable c) :
    AddsAllowed out options (exportWriteAll core text) :=
  exportWriteAll_adds hcore fun c hc => (htext c hc).allowed options

/-- A text that the exporter itself has. -/
theorem exportWriteAll_literal {text : Bytes}
    (htext : text.all (fun c => 0x20 ≤ c && c < 0x80) = true) :
    AddsAllowed out options (exportWriteAll core text) :=
  exportWriteAll_printable hcore (printable_of_all htext)

theorem indentLoop_adds (total : Nat) : AddsAllowed out options (indentLoop core total) := by
  induction total using Nat.strongRecOn with
  | ind total ih =>
    have hspaces : ∀ c ∈ List.replicate (min total 64) (0x20 : UInt8), Printable c := by
      intro c hc
      rw [List.eq_of_mem_replicate hc]
      decide
    rw [indentLoop]
    refine .ite (fun hmore => ?_) fun _ => .pure trivial
    exact (exportWriteAll_printable hcore hspaces).bind fun _ _ => ih _ (by omega)

theorem writeIndent_adds (depth : UInt32) :
    AddsAllowed out options (writeIndent core options depth) :=
  .ite (fun _ => .pure trivial) fun _ => indentLoop_adds hcore _

/-- A line feed is written only where there are spaces to indent by. -/
theorem writeNewline_adds : AddsAllowed out options (writeNewline core options) := by
  refine .ite (fun _ => .pure trivial) fun hindent => exportWriteAll_adds hcore ?_
  intro c hc
  exact .inl ⟨List.mem_singleton.mp hc, hindent⟩

theorem hexEscape_adds (codepoint : UInt32) :
    AddsAllowed out options (hexEscape core codepoint) := by
  refine (formatted_adds (hcore.formatHexadecimal _ _ _)).bind fun digits hdigits => ?_
  refine (exportWriteAll_literal hcore rfl).bind fun _ _ => ?_
  exact exportWriteAll_printable hcore (printable_upperHex hdigits)

theorem writePiece_adds {piece : JsonPiece} (hpiece : piece.Clean (asciiOnlyOf options)) :
    AddsAllowed out options (writePiece core piece) := by
  cases piece with
  | bytes text =>
    apply exportWriteAll_adds hcore
    intro c hc
    exact .inr (hpiece c hc)
  | escape codepoint => exact hexEscape_adds hcore codepoint
  | surrogates high low =>
    exact (hexEscape_adds hcore high).bind fun _ _ => hexEscape_adds hcore low

theorem jsonStringLoop_adds (data : Bytes) (length index : Nat) :
    AddsAllowed out options (jsonStringLoop core options data length index) := by
  induction hleft : length - index using Nat.strongRecOn generalizing index with
  | ind left ih =>
    rw [jsonStringLoop]
    refine .ite (fun hmore => ?_) fun _ => .pure trivial
    cases hpiece : jsonPiece (asciiOnlyOf options) (data.drop index) (length - index) with
    | no => exact fail_adds
    | fault => exact .throw _
    | ok done =>
      obtain ⟨piece, consumed⟩ := done
      have hpos := jsonPiece_pos hpiece
      exact (writePiece_adds hcore (jsonPiece_clean hpiece)).bind fun _ _ =>
        ih _ (by omega) (index + consumed) rfl

theorem writeJsonString_adds (data : Bytes) (length : Nat) :
    AddsAllowed out options (writeJsonString core options data length) := by
  have hquote : AddsAllowed out options (exportWriteAll core [0x22]) :=
    exportWriteAll_literal hcore rfl
  exact hquote.bind fun _ _ => (jsonStringLoop_adds hcore data length 0).bind fun _ _ => hquote

theorem writeNumberFloat64_adds (bits : UInt64) :
    AddsAllowed out options (writeNumberFloat64 core bits) := by
  refine .ite (fun _ => exportWriteAll_literal hcore rfl) fun _ => ?_
  refine (formatted_adds (hcore.formatDouble _ _)).bind fun text htext => ?_
  refine (exportWriteAll_printable hcore htext).bind fun _ _ => .ite (fun _ => .pure trivial) ?_
  intro _
  exact exportWriteAll_literal hcore rfl

/-! ## The exporter -/

variable (r : Reader)

omit hcore in
theorem arrangeEntries_adds (entries : List SortEntry) :
    AddsAllowed out options (arrangeEntries core options r entries) := by
  have hsorted : ∀ less, AddsAllowed out options (sortEntries core less entries) := fun _ =>
    .ite (fun _ => .throw _) fun _ => .pure trivial
  exact .ite (fun _ => hsorted _) fun _ => hsorted _

section

variable {child : UInt64 → UInt32 → ExportM σ Unit}
  (hchild : ∀ offset depth, AddsAllowed out options (child offset depth))

include hchild

theorem exportEntriesLoop_adds (depth : UInt32) (first : Bool) (entries : List SortEntry) :
    AddsAllowed out options (exportEntriesLoop core options r child depth first entries) := by
  induction entries generalizing first with
  | nil => exact .pure trivial
  | cons entry entries ih =>
    have hvalue : AddsAllowed out options (child entry.valueOffset depth >>= fun _ =>
        exportEntriesLoop core options r child depth false entries) :=
      (hchild _ depth).bind fun _ _ => ih false
    have hcolon : AddsAllowed out options (exportWriteAll core [0x3A]) :=
      exportWriteAll_literal hcore rfl
    have hspaced : AddsAllowed out options (exportWriteAll core [0x3A, 0x20]) :=
      exportWriteAll_literal hcore rfl
    have hindent : AddsAllowed out options (writeIndent core options depth) :=
      writeIndent_adds hcore depth
    have hkey := hindent.bind fun _ _ =>
      (writeJsonString_adds hcore (r.base.from (entry.keyPoolOffset + 4))
        entry.keyLength.toNat).bind fun _ _ =>
          Adds.ite (c := indentSpacesOf options = 0) (fun _ => hcolon.bind fun _ _ => hvalue)
            fun _ => hspaced.bind fun _ _ => hvalue
    rw [exportEntriesLoop]
    refine .ite (fun _ => ?_) fun _ => hkey
    exact (exportWriteAll_literal hcore rfl).bind fun _ _ =>
      (writeNewline_adds hcore).bind fun _ _ => hkey

theorem exportElementsLoop_adds (depth : UInt32) (first : Bool) (count : Nat) (offset : UInt64) :
    AddsAllowed out options (exportElementsLoop core options r child depth first count offset) := by
  induction count generalizing first offset with
  | zero => exact .pure trivial
  | succ count ih =>
    have hindent : AddsAllowed out options (writeIndent core options depth) :=
      writeIndent_adds hcore depth
    have helement := hindent.bind fun _ _ =>
      (fromReader_adds (loadU64 r.base offset)).bind fun valueOffset _ =>
        (hchild valueOffset depth).bind fun _ _ => ih false (offset + arrayElementSize)
    rw [exportElementsLoop]
    refine .ite (fun _ => ?_) fun _ => helement
    exact (exportWriteAll_literal hcore rfl).bind fun _ _ =>
      (writeNewline_adds hcore).bind fun _ _ => helement

theorem exportBlock_adds (offset : UInt64) (depth : UInt32) :
    AddsAllowed out options (exportBlock core options r child offset depth) := by
  have hnewline : AddsAllowed out options (writeNewline core options) := writeNewline_adds hcore
  refine (fromReader_adds _).bind fun body _ => .ite (fun _ => ?_) fun _ => ?_
  · exact exportWriteAll_literal hcore rfl
  · refine (exportWriteAll_literal hcore rfl).bind fun _ _ => ?_
    refine hnewline.bind fun _ _ => (scratchAlloc_adds hcore _ fail_adds).bind fun _ _ => ?_
    refine (fromReader_adds _).bind fun entries _ => ?_
    refine (arrangeEntries_adds r entries).bind fun entries _ => ?_
    refine (exportEntriesLoop_adds hcore r hchild _ _ entries).bind fun _ _ => ?_
    refine hnewline.bind fun _ _ => (writeIndent_adds hcore depth).bind fun _ _ => ?_
    exact exportWriteAll_literal hcore rfl

theorem exportArray_adds (offset : UInt64) (depth : UInt32) :
    AddsAllowed out options (exportArray core options r child offset depth) := by
  have hnewline : AddsAllowed out options (writeNewline core options) := writeNewline_adds hcore
  refine (fromReader_adds _).bind fun body _ => .ite (fun _ => ?_) fun _ => ?_
  · exact exportWriteAll_literal hcore rfl
  · refine (exportWriteAll_literal hcore rfl).bind fun _ _ => ?_
    refine hnewline.bind fun _ _ => ?_
    refine (exportElementsLoop_adds hcore r hchild _ _ _ _).bind fun _ _ => ?_
    refine hnewline.bind fun _ _ => (writeIndent_adds hcore depth).bind fun _ _ => ?_
    exact exportWriteAll_literal hcore rfl

end

theorem exportValue_adds (levels : Nat) (offset : UInt64) (depth : UInt32) :
    AddsAllowed out options (exportValue core options r levels offset depth) := by
  induction levels generalizing offset depth with
  | zero => exact .throw _
  | succ levels ih =>
    refine (fromReader_adds _).bind fun kind _ => ?_
    cases kind with
    | null => exact exportWriteAll_literal hcore rfl
    | false => exact exportWriteAll_literal hcore rfl
    | true => exact exportWriteAll_literal hcore rfl
    | int64 =>
      refine (fromReader_adds _).bind fun value _ => ?_
      exact (formatted_adds (hcore.formatSigned _ value)).bind fun _ htext =>
        exportWriteAll_printable hcore htext
    | uint64 =>
      refine (fromReader_adds _).bind fun value _ => ?_
      exact (formatted_adds (hcore.formatUnsigned _ value)).bind fun _ htext =>
        exportWriteAll_printable hcore htext
    | float64 =>
      exact (fromReader_adds _).bind fun bits _ => writeNumberFloat64_adds hcore bits
    | string =>
      exact (fromReader_adds _).bind fun range _ => writeJsonString_adds hcore _ _
    | block => exact exportBlock_adds hcore r ih offset depth
    | array => exact exportArray_adds hcore r ih offset depth

theorem exportRoots_adds (levels : Nat) :
    AddsAllowed out options (exportRoots core options r levels) := by
  have hnewline : AddsAllowed out options (writeNewline core options) := writeNewline_adds hcore
  refine .ite (fun _ => ?_) fun _ => ?_
  · exact (exportWriteAll_literal hcore rfl).bind fun _ _ => hnewline
  · refine (exportWriteAll_literal hcore rfl).bind fun _ _ => ?_
    refine hnewline.bind fun _ _ => (scratchAlloc_adds hcore _ (.throw _)).bind fun _ _ => ?_
    refine (fromReader_adds _).bind fun entries _ => ?_
    refine (arrangeEntries_adds r entries).bind fun entries _ => ?_
    refine (exportEntriesLoop_adds hcore r (exportValue_adds hcore r levels) _ _ entries).bind
      fun _ _ => ?_
    refine hnewline.bind fun _ _ => ?_
    exact (exportWriteAll_literal hcore rfl).bind fun _ _ => hnewline

/-- Whatever a file has in it and whatever fails, what an export to JSON adds to its sink has no
byte below a space in it but the line feeds of an indentation, and is ASCII with `ascii_only`. -/
theorem json_export_characters (levels : Nat) (options : Option ExportOptions) (world : σ) :
    ∃ added, out (exportJsonEx core levels r options world).2 = out world ++ added ∧
      ∀ c ∈ added, Allowed options c := by
  rcases exportRoots_adds hcore r levels { world, writeFailed := false } with ⟨hadded, -⟩
  rw [exportJsonEx, exportEnd_world]
  exact hadded

end

/-! ## A sink with a limit -/

theorem printable_of_isDigit {b : UInt8} (h : Json.IsDigit b) : Printable b := by
  unfold Json.IsDigit at h
  constructor
  · omega
  · omega

theorem printable_decimalNat (n : Nat) : ∀ c ∈ Json.decimalNat n, Printable c :=
  fun c hc => printable_of_isDigit ((Json.isInt_decimalNat n).isDigit c hc)

theorem printable_decimalInt (v : Int) : ∀ c ∈ Json.decimalInt v, Printable c := by
  intro c hc
  unfold Json.decimalInt at hc
  split at hc
  · exact printable_decimalNat _ c hc
  · rcases List.mem_cons.mp hc with rfl | hc
    · decide
    · exact printable_decimalNat _ c hc

theorem printable_hexDigits (width n : Nat) : ∀ c ∈ Json.hexDigits width n, Printable c := by
  have hdigit : ∀ k < 16, Printable (Json.hexDigit k) := by decide +kernel
  induction width generalizing n with
  | zero =>
    intro c hc
    exact absurd hc List.not_mem_nil
  | succ width ih =>
    intro c hc
    rcases List.mem_append.mp hc with hc | hc
    · exact ih _ c hc
    · rw [List.mem_singleton.mp hc]
      exact hdigit _ (Nat.mod_lt _ (by omega))

theorem limitedCore_addsWrites (capacity : Nat) : (limitedCore capacity).AddsWrites id where
  writeBytes := by
    intro data written
    by_cases hroom : written.length + data.length ≤ capacity
    · exact ⟨data, List.prefix_rfl, congrArg Prod.snd (if_pos hroom)⟩
    · exact ⟨_, List.take_prefix _ _, congrArg Prod.snd (if_neg hroom)⟩
  allocate _ _ := rfl
  formatSigned _ value _ :=
    ⟨rfl, fun _ h => Option.some_injective _ h ▸ printable_decimalInt value.toInt⟩
  formatUnsigned _ value _ :=
    ⟨rfl, fun _ h => Option.some_injective _ h ▸ printable_decimalNat value.toNat⟩
  formatHexadecimal _ value width _ :=
    ⟨rfl, fun _ h => Option.some_injective _ h ▸ printable_hexDigits width value.toNat⟩
  formatDouble := by
    intro size bits written
    refine ⟨rfl, fun text h => ?_⟩
    rw [← Option.some_injective _ h]
    split
    · exact printable_of_all rfl
    · exact printable_of_all rfl

/-- The export of the file with a key behind its end, to a sink with room for three bytes. -/
theorem json_export_characters_limited : ∃ r : Reader, openBuffer true straying = .ok r ∧
    ∃ added, id (exportJsonEx (limitedCore 3) 2 r (some ⟨0, false, true⟩) []).2 = id [] ++ added ∧
      ∀ c ∈ added, Allowed (some ⟨0, false, true⟩) c :=
  ⟨⟨straying, (nested (fun _ => 0) 0xFFFFFFF0).header fun _ => 0⟩, Parts.opened rfl,
    json_export_characters (limitedCore_addsWrites 3) _ 2 _ []⟩

end Hrbl
