import Hrbl.Lib.Outputs
import Hrbl.Lib.JsonDecode
import Hrbl.Printing
import Hrbl.Utf8

/-!
# JSON exports

What the exporter writes is a JSON text for the document, when the functions it calls do what
they are asked for.
-/

namespace Hrbl

open Lib Lib.Outcome

/-! ## What a value stands for -/

/-- A text for this scalar stands for this. -/
def SpellsScalar : Scalar → Json.Value → Prop
  | .null, j => j = .null
  | .bool value, j => j = .bool value
  | .int64 value, j => ∃ token, j = .number token ∧ Json.IsInteger token value.toInt
  | .uint64 value, j => ∃ token, j = .number token ∧ Json.IsInteger token value.toNat
  | .float64 bits, j =>
    if isNonFinite bits then j = .null
    else ∃ token, j = .number token ∧ Json.IsNumber token ∧ ∀ v, ¬Json.IsInteger token v
  | .string value, j => ∃ chars, j = .string chars ∧ value = chars.flatMap String.utf8EncodeChar

mutual

/-- A block stands for an object with its members in their order. -/
def Spells : Value → Json.Value → Prop
  | .scalar s, j => SpellsScalar s j
  | .block members, j => ∃ out, j = .object out ∧ SpellsMembers members out
  | .array elements, j => ∃ out, j = .array out ∧ SpellsElements elements out

def SpellsMembers : List (Bytes × Value) → List (List Char × Json.Value) → Prop
  | [], out => out = []
  | (key, value) :: members, out => ∃ chars j rest, out = (chars, j) :: rest ∧
      key = chars.flatMap String.utf8EncodeChar ∧ Spells value j ∧ SpellsMembers members rest

def SpellsElements : List Value → List Json.Value → Prop
  | [], out => out = []
  | value :: elements, out => ∃ j rest, out = j :: rest ∧ Spells value j ∧
      SpellsElements elements rest

end

/-! ## What is called -/

variable {σ : Type}

/-- The sink takes everything. -/
def Core.Takes (core : Core σ) (output : σ → Bytes) : Prop :=
  ∀ data world, ∃ world', core.writeBytes data world = (true, world') ∧
    output world' = output world ++ data

/-- The sink takes everything, nothing is refused, the formatters print what they are named
for, and the sort sorts. -/
structure Core.Works (core : Core σ) (output : σ → Bytes) : Prop where
  writeBytes : ∀ data world, ∃ world', core.writeBytes data world = (true, world') ∧
    output world' = output world ++ data
  allocate : ∀ bytes world, ∃ world', core.allocate bytes world = (true, world') ∧
    output world' = output world
  formatSigned : ∀ value world, ∃ world', core.formatSigned 32 value world =
    (some (Json.decimalInt value.toInt), world') ∧ output world' = output world
  formatUnsigned : ∀ value world, ∃ world', core.formatUnsigned 32 value world =
    (some (Json.decimalNat value.toNat), world') ∧ output world' = output world
  formatHexadecimal : ∀ value world, value.toNat < 2 ^ 16 → ∃ world',
    core.formatHexadecimal 6 value 4 world = (some (Json.hexDigits 4 value.toNat), world') ∧
      output world' = output world
  formatDouble : ∀ bits world, isNonFinite bits = false → ∃ token world',
    core.formatDouble 64 bits world = (some token, world') ∧ Json.IsNumber token ∧
      output world' = output world
  sortWithCompare : Sorts core.sortWithCompare

/-- The export goes on, and puts such a text behind the output. -/
abbrev Writes (output : σ → Bytes) {α : Type} (m : ExportM σ α) (Q : α → Bytes → Prop) : Prop :=
  Outputs (fun s => s.writeFailed = false) (fun s => output s.world) m Q

namespace Writes

variable {core : Core σ} {output : σ → Bytes} (options : Option ExportOptions)

theorem callCore {α : Type} {call : σ → α × σ} {P : α → Prop}
    (hcall : ∀ world, ∃ a world', call world = (a, world') ∧ output world' = output world ∧ P a) :
    Writes output (callCore call) fun a text => text = [] ∧ P a := by
  intro s hs
  obtain ⟨a, world', hrun, houtput, hP⟩ := hcall s.world
  refine ⟨a, [], { s with world := world' }, ?_, hs, ?_, rfl, hP⟩
  · change EStateM.Result.ok (call s.world).1 { s with world := (call s.world).2 } = _
    rw [hrun]
  · rw [List.append_nil]
    exact houtput

theorem scratchAlloc (h : core.Works output) (bytes : Nat) (failed : ExportM σ Unit) :
    Writes output (scratchAlloc core bytes failed) fun _ text => text = [] := by
  have hcall : ∀ world, ∃ a world', core.allocate bytes world = (a, world') ∧
      output world' = output world ∧ a = true := by
    intro world
    obtain ⟨world', hrun, houtput⟩ := h.allocate bytes world
    exact ⟨true, world', hrun, houtput, rfl⟩
  refine (callCore hcall).bind fun allocated text hallocated => ?_
  obtain ⟨rfl, rfl⟩ := hallocated
  exact Outputs.pure rfl

theorem exportWriteAll (h : core.Takes output) (data : Bytes) :
    Writes output (exportWriteAll core data) fun _ text => text = data := by
  intro s hs
  have hstart : Hrbl.exportWriteAll core data s =
      (if data.length = 0 then Pure.pure () else do
        let written ← Hrbl.callCore (core.writeBytes data)
        if written then Pure.pure () else fail : ExportM σ Unit) s := by
    change (if s.writeFailed = true then _ else _ : ExportM σ Unit) s = _
    rw [if_neg (by rw [hs]; exact Bool.false_ne_true)]
  by_cases hempty : data.length = 0
  · refine ⟨(), [], s, ?_, hs, (List.append_nil _).symm, (List.length_eq_zero_iff.mp hempty).symm⟩
    rw [hstart, if_pos hempty]
    rfl
  · obtain ⟨world', hrun, houtput⟩ := h data s.world
    refine ⟨(), data, { s with world := world' }, ?_, hs, houtput, rfl⟩
    rw [hstart, if_neg hempty]
    change (if (core.writeBytes data s.world).1 = true then _ else _ : ExportM σ Unit)
      { s with world := (core.writeBytes data s.world).2 } = _
    rw [hrun]
    rfl

theorem formatted {call : σ → Option Bytes × σ} {P : Bytes → Prop}
    (hcall : ∀ world, ∃ bytes world', call world = (some bytes, world') ∧
      output world' = output world ∧ P bytes) :
    Writes output (formatted call) fun bytes text => text = [] ∧ P bytes := by
  have hsome : ∀ world, ∃ result world', call world = (result, world') ∧
      output world' = output world ∧ ∃ bytes, result = some bytes ∧ P bytes := by
    intro world
    obtain ⟨bytes, world', hrun, houtput, hP⟩ := hcall world
    exact ⟨some bytes, world', hrun, houtput, bytes, rfl, hP⟩
  refine (callCore hsome).bind fun result text hresult => ?_
  obtain ⟨rfl, bytes, rfl, hP⟩ := hresult
  exact Outputs.pure ⟨rfl, hP⟩

theorem writeNewline (h : core.Works output) :
    Writes output (writeNewline core options) fun _ text => Json.IsSpace text := by
  refine Outputs.ite (fun _ => Outputs.pure Json.isSpace_nil) fun _ => ?_
  exact (exportWriteAll h.writeBytes _).mono fun _ text htext => htext ▸ Json.isSpace_newline

theorem indentLoop (h : core.Works output) (total : Nat) :
    Writes output (indentLoop core total) fun _ text => Json.IsSpace text := by
  fun_induction Hrbl.indentLoop core total with
  | case1 total htotal ih =>
    refine (exportWriteAll h.writeBytes _).bind fun _ text htext => ih.mono fun _ rest hrest => ?_
    exact (htext ▸ Json.isSpace_replicate _).append hrest
  | case2 total htotal => exact Outputs.pure Json.isSpace_nil

theorem writeIndent (h : core.Works output) (depth : UInt32) :
    Writes output (writeIndent core options depth) fun _ text => Json.IsSpace text :=
  Outputs.ite (fun _ => Outputs.pure Json.isSpace_nil) fun _ => indentLoop h _

end Writes

/-! ## Strings -/

/-- A piece of a string that stands for a character. -/
def JsonPiece.For (c : Char) : JsonPiece → Prop
  | .bytes raw => Json.IsChar raw c
  | .escape codepoint => codepoint.toNat = c.toNat ∧ c.toNat < 2 ^ 16
  | .surrogates high low => 0x10000 ≤ c.toNat ∧
      high.toNat = 0xD800 + (c.toNat - 0x10000) / 1024 ∧
      low.toNat = 0xDC00 + (c.toNat - 0x10000) % 1024

/-- A piece that is written in ASCII. -/
def JsonPiece.IsAscii : JsonPiece → Prop
  | .bytes raw => ∀ b ∈ raw, b < 0x80
  | _ => True

/-- What has an escape of its own, and that quotes and backslashes do. -/
theorem jsonReplacement_ascii {n : Nat} (hn : n < 0x80) :
    jsonReplacement (UInt8.ofNat n) = none ∧ n ≠ 0x22 ∧ n ≠ 0x5C ∨
      ∃ p ∈ Json.escapes, p.2.toNat = n ∧
        jsonReplacement (UInt8.ofNat n) = some [0x5C, p.1] := by
  have hall : ∀ m : Fin 0x80,
      jsonReplacement (UInt8.ofNat m) = none ∧ m.val ≠ 0x22 ∧ m.val ≠ 0x5C ∨
        ∃ p ∈ Json.escapes, p.2.toNat = m.val ∧
          jsonReplacement (UInt8.ofNat m) = some [0x5C, p.1] := by decide +kernel
  exact hall ⟨n, hn⟩

theorem jsonReplacement_high {byte : UInt8} (h : ¬byte < 0x80) : jsonReplacement byte = none := by
  have hne : ∀ b : UInt8, b < 0x80 → byte ≠ b := fun b hb heq => h (heq ▸ hb)
  rw [jsonReplacement, if_neg (hne _ (by decide)), if_neg (hne _ (by decide)),
    if_neg (hne _ (by decide)), if_neg (hne _ (by decide)), if_neg (hne _ (by decide)),
    if_neg (hne _ (by decide)), if_neg (hne _ (by decide))]

/-- The encoding of a character is decoded to it. -/
theorem exportUtf8Decode_char {c : Char} {byte : UInt8} {tails rest : Bytes} {lead : UInt32}
    (h : LongForm c byte tails lead) {remaining : Nat} (hroom : tails.length + 1 ≤ remaining) :
    exportUtf8Decode (byte :: (tails ++ rest)) remaining =
      .ok (UInt32.ofNat c.toNat, tails.length + 1) := by
  have hbounds := utf8Lead_eq_some h.announces
  have hfits : (lead.toNat + 1) * 64 ^ tails.length ≤ 2 ^ 32 :=
    (Nat.mul_le_mul (show lead.toNat + 1 ≤ 32 by omega)
      (Nat.pow_le_pow_right (by omega) (show tails.length ≤ 3 by omega))).trans (by decide)
  have hlength : tails.length ≤ (tails ++ rest).length := by
    rw [List.length_append]
    omega
  rw [exportUtf8Decode, if_neg h.high, h.announces]
  simp only
  rw [if_neg (by omega), utf8Continuation_eq hlength hfits, List.take_left, if_pos h.areTails,
    h.value]

/-- The two halves of a code point outside of the basic plane. -/
theorem toNat_surrogates {v : UInt32} (h : 0x10000 ≤ v.toNat) (hlt : v.toNat < 2 ^ 21) :
    ((0xD800 : UInt32) + ((v - 0x10000) >>> 10)).toNat = 0xD800 + (v.toNat - 0x10000) / 1024 ∧
      ((0xDC00 : UInt32) + ((v - 0x10000) &&& 0x3FF)).toNat =
        0xDC00 + (v.toNat - 0x10000) % 1024 := by
  have hsub : (v - 0x10000).toNat = v.toNat - 0x10000 :=
    UInt32.toNat_sub_of_le _ _ (UInt32.le_iff_toNat_le.mpr h)
  have hshift : ((v - 0x10000) >>> 10).toNat = (v.toNat - 0x10000) / 1024 := by
    rw [UInt32.toNat_shiftRight, hsub, Nat.shiftRight_eq_div_pow]
    rfl
  have hmask : ((v - 0x10000) &&& 0x3FF).toNat = (v.toNat - 0x10000) % 1024 := by
    rw [UInt32.toNat_and, hsub]
    exact Nat.and_two_pow_sub_one_eq_mod _ 10
  rw [UInt32.toNat_add, UInt32.toNat_add, hshift, hmask]
  simp only [UInt32.reduceToNat]
  omega

/-- A turn of the loop takes the encoding of a character, and what it writes is for it. -/
theorem jsonPiece_char (asciiOnly : Bool) (c : Char) (rest : Bytes) {remaining : Nat}
    (hroom : (String.utf8EncodeChar c).length ≤ remaining) :
    ∃ piece, jsonPiece asciiOnly (String.utf8EncodeChar c ++ rest) remaining =
      .ok (piece, (String.utf8EncodeChar c).length) ∧ piece.For c := by
  by_cases hascii : c.toNat < 0x80
  · have hencoding : String.utf8EncodeChar c = [UInt8.ofNat c.toNat] := by
      rw [utf8EncodeChar_eq rfl, if_pos hascii]
    have hbyte := toNat_ofNat_byte (show c.toNat < 256 by omega)
    rw [hencoding, List.cons_append, jsonPiece]
    -- a letter escape where JSON has one, else by the range
    rcases jsonReplacement_ascii hascii with ⟨hnone, hquote, hbackslash⟩ | ⟨p, hp, hchar, hsome⟩
    · rw [hnone]
      simp only
      by_cases hcontrol : UInt8.ofNat c.toNat < 0x20
      · rw [if_pos hcontrol]
        refine ⟨_, rfl, ?_, by omega⟩
        rw [UInt8.toNat_toUInt32, hbyte]
      · have hlow : UInt8.ofNat c.toNat < 0x80 := by
          rw [UInt8.lt_iff_toNat_lt, hbyte]
          exact hascii
        rw [if_neg hcontrol, if_pos hlow]
        refine ⟨_, rfl, ?_⟩
        rw [JsonPiece.For, ← hencoding]
        refine .unescaped c ?_ (fun heq => hquote (by rw [heq]; rfl))
          fun heq => hbackslash (by rw [heq]; rfl)
        rw [UInt8.lt_iff_toNat_lt, hbyte] at hcontrol
        exact Nat.not_lt.mp hcontrol
    · rw [hsome]
      obtain ⟨letter, c'⟩ := p
      obtain rfl : c' = c := Char.toNat_inj.mp hchar
      exact ⟨_, rfl, Json.IsChar.escape letter c' hp⟩
  · obtain ⟨byte, tails, lead, hform⟩ := exists_longForm hascii
    have hscalar := isScalar_toNat c
    rw [IsScalar] at hscalar
    have hvalue : (UInt32.ofNat c.toNat).toNat = c.toNat := by
      rw [UInt32.toNat_ofNat']
      omega
    have hcontrol : ¬byte < 0x20 := fun h => hform.high (UInt8.lt_trans h (by decide))
    rw [hform.encoding, List.length_cons] at hroom
    rw [hform.encoding, List.cons_append, jsonPiece, jsonReplacement_high hform.high]
    simp only
    rw [if_neg hcontrol, if_neg hform.high, exportUtf8Decode_char hform hroom]
    simp only
    cases asciiOnly with
    | false =>
      refine ⟨_, rfl, ?_⟩
      rw [JsonPiece.For, List.take_succ_cons, List.take_left, ← hform.encoding]
      exact .unescaped c (by omega) (fun heq => hascii (by rw [heq]; decide))
        fun heq => hascii (by rw [heq]; decide)
    | true =>
      -- above the basic plane a character takes two escapes
      by_cases hplane : UInt32.ofNat c.toNat ≤ 0xFFFF
      · rw [if_neg (by decide), if_pos hplane]
        refine ⟨_, rfl, hvalue, ?_⟩
        rw [UInt32.le_iff_toNat_le, hvalue] at hplane
        exact Nat.lt_succ_of_le hplane
      · rw [if_neg (by decide), if_neg hplane]
        rw [UInt32.le_iff_toNat_le, hvalue] at hplane
        have hhigh : 0x10000 ≤ c.toNat := Nat.succ_le_of_lt (Nat.not_le.mp hplane)
        obtain ⟨hfirst, hsecond⟩ := toNat_surrogates (v := UInt32.ofNat c.toNat)
          (by rwa [hvalue]) (by omega)
        rw [hvalue] at hfirst hsecond
        exact ⟨_, rfl, hhigh, hfirst, hsecond⟩

theorem jsonReplacement_isAscii {byte : UInt8} {replacement : Bytes}
    (h : jsonReplacement byte = some replacement) : ∀ b ∈ replacement, b < 0x80 := by
  have hascii : byte < 0x80 := by
    by_contra hhigh
    rw [jsonReplacement_high hhigh] at h
    cases h
  rcases jsonReplacement_ascii (UInt8.lt_iff_toNat_lt.mp hascii) with ⟨hnone, -⟩ | ⟨p, hp, -, hsome⟩
  · rw [UInt8.ofNat_toNat, h] at hnone
    cases hnone
  · rw [UInt8.ofNat_toNat, h] at hsome
    cases hsome
    have hletters : ∀ q ∈ Json.escapes, ∀ b ∈ [0x5C, q.1], b < 0x80 := by decide +kernel
    exact hletters p hp

/-- With `ascii_only`, every turn writes ASCII. -/
theorem jsonPiece_isAscii {data : Bytes} {remaining consumed : Nat} {piece : JsonPiece}
    (h : jsonPiece true data remaining = .ok (piece, consumed)) : piece.IsAscii := by
  cases data with
  | nil => cases h
  | cons byte rest =>
    rw [jsonPiece] at h
    split at h
    · rename_i replacement hreplacement
      cases h
      exact jsonReplacement_isAscii hreplacement
    · split at h
      · cases h
        exact trivial
      · split at h
        · rename_i hlow
          cases h
          exact List.forall_mem_singleton.mpr hlow
        · split at h
          · cases h
          · cases h
          · rw [if_neg (by decide)] at h
            split at h
            · cases h
              exact trivial
            · cases h
              exact trivial

namespace Writes

variable {core : Core σ} {output : σ → Bytes} (options : Option ExportOptions)

/-- An escape with four digits in upper case. -/
theorem hexEscape (h : core.Works output) {codepoint : UInt32} (hlt : codepoint.toNat < 2 ^ 16) :
    Writes output (hexEscape core codepoint) fun _ text =>
      ∃ quad, text = 0x5C :: 0x75 :: quad ∧ Json.IsHexQuad quad codepoint.toNat := by
  have hupper : ∀ k < 16, Json.IsHexDigit
      (if Json.hexDigit k ≥ 0x61 ∧ Json.hexDigit k ≤ 0x66 then Json.hexDigit k - 0x20
        else Json.hexDigit k) k := by decide
  have hcall : ∀ world, ∃ digits world',
      core.formatHexadecimal 6 codepoint.toUInt64 4 world = (some digits, world') ∧
        output world' = output world ∧ digits = Json.hexDigits 4 codepoint.toNat := by
    intro world
    obtain ⟨world', hrun, houtput⟩ := h.formatHexadecimal codepoint.toUInt64 world hlt
    exact ⟨_, world', hrun, houtput, rfl⟩
  refine (formatted hcall).bind fun digits text hdigits => ?_
  obtain ⟨rfl, rfl⟩ := hdigits
  refine (exportWriteAll h.writeBytes _).bind fun _ text htext => ?_
  subst htext
  exact (exportWriteAll h.writeBytes _).mono fun _ text htext =>
    ⟨text, rfl, htext ▸ Json.isHexQuad_map_hexDigits hupper hlt⟩

/-- A piece for a character is written as it. -/
theorem writePiece (h : core.Works output) {piece : JsonPiece} {c : Char} (hpiece : piece.For c) :
    Writes output (writePiece core piece) fun _ text =>
      Json.IsChar text c ∧ (piece.IsAscii → ∀ b ∈ text, b < 0x80) := by
  have hescape : ∀ {quad n}, Json.IsHexQuad quad n →
      ∀ b ∈ (0x5C : UInt8) :: 0x75 :: quad, b < 0x80 := by
    intro quad n hquad
    rw [List.forall_mem_cons, List.forall_mem_cons]
    exact ⟨by decide, by decide, fun b hb => (hquad.plain b hb).1⟩
  cases piece with
  | bytes raw =>
    refine (exportWriteAll h.writeBytes raw).mono fun _ text htext => ?_
    subst htext
    exact ⟨hpiece, fun hascii => hascii⟩
  | escape codepoint =>
    obtain ⟨hvalue, hlt⟩ := hpiece
    refine (hexEscape h (by omega)).mono fun _ text htext => ?_
    obtain ⟨quad, rfl, hquad⟩ := htext
    exact ⟨.unicode quad c (hvalue ▸ hquad), fun _ => hescape hquad⟩
  | surrogates high low =>
    obtain ⟨hplane, hhigh, hlow⟩ := hpiece
    have hscalar := isScalar_toNat c
    rw [IsScalar] at hscalar
    refine (hexEscape h (by omega)).bind fun _ text htext => ?_
    obtain ⟨first, rfl, hfirst⟩ := htext
    refine (hexEscape h (by omega)).mono fun _ text htext => ?_
    obtain ⟨second, rfl, hsecond⟩ := htext
    refine ⟨.surrogates first second _ _ c hfirst hsecond (by omega) (by omega) (by omega)
      (by omega) (by omega), fun _ => ?_⟩
    exact List.forall_mem_append.mpr ⟨hescape hfirst, hescape hsecond⟩

/-- The loop over a string, from behind some of its characters. -/
theorem jsonStringLoop (h : core.Works output) {s : Bytes} :
    ∀ {chars : List Char} (done : Bytes), s = done ++ chars.flatMap String.utf8EncodeChar →
      Writes output (jsonStringLoop core options s s.length done.length) fun _ text =>
        Json.AreChars text chars ∧ (asciiOnlyOf options = true → ∀ b ∈ text, b < 0x80)
  | [], done, hs => by
    rw [List.flatMap_nil, List.append_nil] at hs
    rw [Hrbl.jsonStringLoop, if_neg (by rw [hs]; exact Nat.lt_irrefl _)]
    exact Outputs.pure ⟨.nil, fun _ b hb => absurd hb List.not_mem_nil⟩
  | c :: chars, done, hs => by
    rw [List.flatMap_cons] at hs
    have hlength := congrArg List.length hs
    rw [List.length_append, List.length_append] at hlength
    have hpos : 0 < (String.utf8EncodeChar c).length := String.length_utf8EncodeChar c ▸ c.utf8Size_pos
    obtain ⟨piece, hpiece, hfor⟩ := jsonPiece_char (asciiOnlyOf options) c
      (chars.flatMap String.utf8EncodeChar) (show _ ≤ s.length - done.length by omega)
    have hdrop : s.drop done.length =
        String.utf8EncodeChar c ++ chars.flatMap String.utf8EncodeChar := by
      rw [hs, List.drop_left]
    have hrest : Writes output (Hrbl.jsonStringLoop core options s s.length
        (done.length + (String.utf8EncodeChar c).length)) fun _ text =>
          Json.AreChars text chars ∧ (asciiOnlyOf options = true → ∀ b ∈ text, b < 0x80) := by
      rw [← List.length_append]
      exact jsonStringLoop h _ (by rw [List.append_assoc]; exact hs)
    rw [← hdrop] at hpiece
    rw [Hrbl.jsonStringLoop, if_pos (by omega)]
    split
    · rename_i hno
      cases hno.symm.trans hpiece
    · rename_i hfault
      cases hfault.symm.trans hpiece
    · rename_i piece' consumed hok
      cases hok.symm.trans hpiece
      refine (writePiece h hfor).bind fun _ text htext => hrest.mono fun _ rest hrest => ?_
      refine ⟨.cons htext.1 hrest.1, fun hascii => ?_⟩
      rw [hascii] at hpiece
      exact List.forall_mem_append.mpr ⟨htext.2 (jsonPiece_isAscii hpiece), hrest.2 hascii⟩

/-- A string of well-formed UTF-8 is written as its characters. -/
theorem writeJsonString (h : core.Works output) {s : Bytes} {chars : List Char}
    (hs : s = chars.flatMap String.utf8EncodeChar) :
    Writes output (writeJsonString core options s s.length) fun _ text =>
      Json.IsString text chars ∧ (asciiOnlyOf options = true → ∀ b ∈ text, b < 0x80) := by
  have hloop : Writes output (Hrbl.jsonStringLoop core options s s.length 0) fun _ text =>
      Json.AreChars text chars ∧ (asciiOnlyOf options = true → ∀ b ∈ text, b < 0x80) :=
    jsonStringLoop options h [] hs
  refine (exportWriteAll h.writeBytes _).bind fun _ opening hopening => hloop.bind fun _ body hbody =>
    (exportWriteAll h.writeBytes _).mono fun _ closing hclosing => ?_
  subst hopening
  subst hclosing
  have hquote : ∀ b ∈ [(0x22 : UInt8)], b < 0x80 := List.forall_mem_singleton.mpr (by decide)
  exact ⟨⟨body, rfl, hbody.1⟩, fun hascii => List.forall_mem_append.mpr
    ⟨hquote, List.forall_mem_append.mpr ⟨hbody.2 hascii, hquote⟩⟩⟩

/-! ## Scalars -/

/-- A finite float is written as a number that is no integer. -/
theorem writeNumberFloat64 (h : core.Works output) {bits : UInt64}
    (hfinite : isNonFinite bits = false) :
    Writes output (writeNumberFloat64 core bits) fun _ text =>
      Json.IsNumber text ∧ ∀ v, ¬Json.IsInteger text v := by
  have hcall : ∀ world, ∃ token world', core.formatDouble 64 bits world = (some token, world') ∧
      output world' = output world ∧ Json.IsNumber token := by
    intro world
    obtain ⟨token, world', hrun, hnumber, houtput⟩ := h.formatDouble bits world hfinite
    exact ⟨token, world', hrun, houtput, hnumber⟩
  have hmark : ∀ b, isDotOrExp b = true ↔ Json.IsDotOrExp b := by
    intro b
    simp only [isDotOrExp, Json.IsDotOrExp, Bool.or_eq_true, decide_eq_true_eq, or_assoc]
  rw [Hrbl.writeNumberFloat64, if_neg (by rw [hfinite]; exact Bool.false_ne_true)]
  refine (formatted hcall).bind fun token text htoken => ?_
  obtain ⟨rfl, hnumber⟩ := htoken
  refine (exportWriteAll h.writeBytes _).bind fun _ text htext => ?_
  subst htext
  refine Outputs.ite (fun hany => Outputs.pure ?_) fun hnone => ?_
  · obtain ⟨b, hb, hdot⟩ := List.any_eq_true.mp hany
    rw [List.append_nil, List.nil_append]
    exact ⟨hnumber, fun v hv => hv.not_dotOrExp b hb ((hmark b).mp hdot)⟩
  · refine (exportWriteAll h.writeBytes _).mono fun _ rest hrest => ?_
    have hplain : ∀ b ∈ text, ¬Json.IsDotOrExp b := fun b hb hdot =>
      hnone (List.any_eq_true.mpr ⟨b, hb, (hmark b).mpr hdot⟩)
    subst hrest
    refine ⟨hnumber.append_fraction hplain, fun v hv => ?_⟩
    have hdot : (0x2E : UInt8) ∈ ascii ['.', '0'] := List.mem_cons_self
    exact hv.not_dotOrExp 0x2E (List.mem_append_right _ (List.mem_append_right _ hdot))
      (.inl rfl)

/-- A scalar is written as what it stands for. -/
theorem printScalar (h : core.Works output) {s : Scalar}
    (hutf8 : ∀ u ∈ valueTexts (.scalar s), IsUtf8 u) :
    Writes output (printScalar core options s) fun _ text =>
      ∃ j, Json.IsValue text j ∧ SpellsScalar s j := by
  cases s with
  | null => exact (exportWriteAll h.writeBytes _).mono fun _ text htext => ⟨.null, htext ▸ .null, rfl⟩
  | bool value =>
    cases value with
    | false =>
      exact (exportWriteAll h.writeBytes _).mono fun _ text htext => ⟨.bool false, htext ▸ .false, rfl⟩
    | true => exact (exportWriteAll h.writeBytes _).mono fun _ text htext => ⟨.bool true, htext ▸ .true, rfl⟩
  | int64 value =>
    have hcall : ∀ world, ∃ token world', core.formatSigned 32 value world =
        (some token, world') ∧ output world' = output world ∧
          token = Json.decimalInt value.toInt := by
      intro world
      obtain ⟨world', hrun, houtput⟩ := h.formatSigned value world
      exact ⟨_, world', hrun, houtput, rfl⟩
    refine (formatted hcall).bind fun token text htoken => ?_
    obtain ⟨rfl, rfl⟩ := htoken
    have hint := Json.isInteger_decimalInt value.toInt
    refine (exportWriteAll h.writeBytes _).mono fun _ text htext => ?_
    subst htext
    exact ⟨.number _, .number hint.isNumber, _, rfl, hint⟩
  | uint64 value =>
    have hcall : ∀ world, ∃ token world', core.formatUnsigned 32 value world =
        (some token, world') ∧ output world' = output world ∧
          token = Json.decimalNat value.toNat := by
      intro world
      obtain ⟨world', hrun, houtput⟩ := h.formatUnsigned value world
      exact ⟨_, world', hrun, houtput, rfl⟩
    refine (formatted hcall).bind fun token text htoken => ?_
    obtain ⟨rfl, rfl⟩ := htoken
    have hint := Json.isInteger_decimalNat value.toNat
    refine (exportWriteAll h.writeBytes _).mono fun _ text htext => ?_
    subst htext
    exact ⟨.number _, .number hint.isNumber, _, rfl, hint⟩
  | float64 bits =>
    rw [Hrbl.printScalar]
    -- infinities and NaN have no number, and are spelled null
    by_cases hfinite : isNonFinite bits = false
    · refine (writeNumberFloat64 h hfinite).mono fun _ text htext => ?_
      refine ⟨.number text, .number htext.1, ?_⟩
      rw [SpellsScalar, hfinite]
      exact ⟨text, rfl, htext⟩
    · rw [Bool.not_eq_false] at hfinite
      rw [Hrbl.writeNumberFloat64, if_pos hfinite]
      refine (exportWriteAll h.writeBytes _).mono fun _ text htext => ⟨.null, htext ▸ .null, ?_⟩
      rw [SpellsScalar, if_pos hfinite]
  | string value =>
    obtain ⟨chars, hchars⟩ := hutf8 value (by rw [valueTexts]; exact List.mem_cons_self)
    exact (writeJsonString options h hchars).mono fun _ text htext =>
      ⟨.string chars, .string htext.1, chars, rfl, hchars⟩

/-! ## Values -/

/-- What stands before a member or an element: nothing but space before the first, and a comma
before the others. -/
def Leads (first : Bool) (lead : Bytes) : Prop :=
  if first then Json.IsSpace lead else Json.IsMark 0x2C lead

/-- The comma, the newline and the indentation before a member or an element. -/
theorem lead (h : core.Works output) (first : Bool) (depth : UInt32) {m : ExportM σ Unit}
    {Q : Bytes → Prop} (hm : Writes output m fun _ text => Q text) :
    Writes output (if !first then do
        Hrbl.exportWriteAll core [0x2C]
        Hrbl.writeNewline core options
        Hrbl.writeIndent core options depth
        m
      else do
        Hrbl.writeIndent core options depth
        m) fun _ text => ∃ lead rest, text = lead ++ rest ∧ Leads first lead ∧ Q rest := by
  cases first with
  | true =>
    exact (writeIndent options h depth).bind fun _ space hspace => hm.mono fun _ rest hrest =>
      ⟨space, rest, rfl, hspace, hrest⟩
  | false =>
    refine (exportWriteAll h.writeBytes _).bind fun _ comma hcomma => (writeNewline options h).bind
      fun _ newline hnewline => (writeIndent options h depth).bind fun _ space hspace =>
        hm.mono fun _ rest hrest => ?_
    subst hcomma
    refine ⟨[0x2C] ++ (newline ++ space), rest, by simp only [List.append_assoc], ?_, hrest⟩
    exact (Json.isMark_singleton _).append (hnewline.append hspace)

/-- The colon between a key and its value. -/
theorem colon (h : core.Works output) {m : ExportM σ Unit} {Q : Bytes → Prop}
    (hm : Writes output m fun _ text => Q text) :
    Writes output (if indentSpacesOf options = 0 then do
        Hrbl.exportWriteAll core [0x3A]
        m
      else do
        Hrbl.exportWriteAll core [0x3A, 0x20]
        m) fun _ text => ∃ mark rest, text = mark ++ rest ∧ Json.IsMark 0x3A mark ∧ Q rest := by
  refine Outputs.ite (fun _ => ?_) fun _ => ?_
  · refine (exportWriteAll h.writeBytes _).bind fun _ mark hmark => hm.mono fun _ rest hrest =>
      ⟨mark, rest, rfl, ?_, hrest⟩
    subst hmark
    exact Json.isMark_singleton _
  · refine (exportWriteAll h.writeBytes _).bind fun _ mark hmark => hm.mono fun _ rest hrest =>
      ⟨mark, rest, rfl, ?_, hrest⟩
    subst hmark
    exact (Json.isMark_singleton _).append (Json.isSpace_replicate 1)

/-- A member, and what is written behind it. -/
theorem printMembers_cons (h : core.Works output) {key : Bytes} {chars : List Char} {value : Value}
    {members : List (Bytes × Value)} {depth : UInt32} {P : Bytes → Prop}
    (hkey : key = chars.flatMap String.utf8EncodeChar)
    (hvalue : Writes output (printValue core options value depth) fun _ text =>
      ∃ j, Json.IsValue text j ∧ Spells value j)
    (hrest : Writes output (printMembers core options members false depth) fun _ text => P text)
    (first : Bool) :
    Writes output (printMembers core options ((key, value) :: members) first depth) fun _ text =>
      ∃ lead name mark inner more j, text = lead ++ (name ++ (mark ++ (inner ++ more))) ∧
        Leads first lead ∧ Json.IsString name chars ∧ Json.IsMark 0x3A mark ∧
        Json.IsValue inner j ∧ Spells value j ∧ P more := by
  have hvalues : Writes output (do
      printValue core options value depth
      printMembers core options members false depth) fun _ text =>
        ∃ inner more j, text = inner ++ more ∧ Json.IsValue inner j ∧ Spells value j ∧ P more := by
    refine hvalue.bind fun _ inner hinner => hrest.mono fun _ more hmore => ?_
    obtain ⟨j, hj, hspells⟩ := hinner
    exact ⟨inner, more, j, rfl, hj, hspells, hmore⟩
  have hmember := (writeJsonString options h hkey).bind (R := fun _ text =>
      ∃ name mark inner more j, text = name ++ (mark ++ (inner ++ more)) ∧
        Json.IsString name chars ∧ Json.IsMark 0x3A mark ∧ Json.IsValue inner j ∧
        Spells value j ∧ P more) fun _ name hname => by
    refine (colon options h hvalues).mono fun _ text htext => ?_
    obtain ⟨mark, _, rfl, hmark, inner, more, j, rfl, hinner, hspells, hmore⟩ := htext
    exact ⟨name, mark, inner, more, j, rfl, hname.1, hmark, hinner, hspells, hmore⟩
  rw [printMembers]
  refine (lead options h first depth hmember).mono fun _ text htext => ?_
  obtain ⟨lead, _, rfl, hlead, name, mark, inner, more, j, rfl, hall⟩ := htext
  exact ⟨lead, name, mark, inner, more, j, rfl, hlead, hall⟩

/-- An element, and what is written behind it. -/
theorem printElements_cons (h : core.Works output) {value : Value} {elements : List Value}
    {depth : UInt32} {P : Bytes → Prop}
    (hvalue : Writes output (printValue core options value depth) fun _ text =>
      ∃ j, Json.IsValue text j ∧ Spells value j)
    (hrest : Writes output (printElements core options elements false depth) fun _ text => P text)
    (first : Bool) :
    Writes output (printElements core options (value :: elements) first depth) fun _ text =>
      ∃ lead inner more j, text = lead ++ (inner ++ more) ∧ Leads first lead ∧
        Json.IsValue inner j ∧ Spells value j ∧ P more := by
  have hvalues : Writes output (do
      printValue core options value depth
      printElements core options elements false depth) fun _ text =>
        ∃ inner more j, text = inner ++ more ∧ Json.IsValue inner j ∧ Spells value j ∧ P more := by
    refine hvalue.bind fun _ inner hinner => hrest.mono fun _ more hmore => ?_
    obtain ⟨j, hj, hspells⟩ := hinner
    exact ⟨inner, more, j, rfl, hj, hspells, hmore⟩
  rw [printElements]
  refine (lead options h first depth hvalues).mono fun _ text htext => ?_
  obtain ⟨lead, _, rfl, hlead, inner, more, j, rfl, hall⟩ := htext
  exact ⟨lead, inner, more, j, rfl, hlead, hall⟩

mutual

/-- A value is written as what it stands for. -/
theorem printValue (h : core.Works output) : ∀ {value : Value} (depth : UInt32),
    (∀ u ∈ valueTexts value, IsUtf8 u) →
      Writes output (printValue core options value depth) fun _ text =>
        ∃ j, Json.IsValue text j ∧ Spells value j
  | .scalar s, depth, hutf8 => by
    rw [Hrbl.printValue]
    exact printScalar options h hutf8
  | .block members, depth, hutf8 => by
    have hmembers := printMembers h true (depth + 1) hutf8
    rw [Hrbl.printValue]
    refine Outputs.ite (fun hempty => ?_) fun hsome => ?_
    · obtain rfl := List.length_eq_zero_iff.mp hempty
      refine (exportWriteAll h.writeBytes _).mono fun _ text htext => ⟨.object [], ?_, [], rfl, rfl⟩
      subst htext
      exact .emptyObject (Json.isMark_singleton _) (Json.isMark_singleton _)
    · refine (exportWriteAll h.writeBytes _).bind fun _ brace hbrace => (writeNewline options h).bind
        fun _ newline hnewline => (scratchAlloc h _ _).bind fun _ none hnone => hmembers.bind
        fun _ text htext => (writeNewline options h).bind fun _ newline' hnewline' =>
        (writeIndent options h depth).bind fun _ space hspace => (exportWriteAll h.writeBytes _).mono
        fun _ brace' hbrace' => ?_
      obtain ⟨rfl, -⟩ | ⟨lead, inner, out, rfl, hlead, hinner, hspells⟩ := htext
      · exact absurd rfl hsome
      subst hbrace hnone hbrace'
      refine ⟨.object out, ?_, out, rfl, hspells⟩
      have hopening := (Json.isMark_singleton 0x7B).append (hnewline.append hlead)
      have hclosing := (Json.isMark_singleton 0x7D).prepend (hnewline'.append hspace)
      have hobject := Json.IsValue.object hopening hinner hclosing
      simp only [List.append_assoc, List.nil_append] at hobject ⊢
      exact hobject
  | .array elements, depth, hutf8 => by
    have helements := printElements h true (depth + 1) hutf8
    rw [Hrbl.printValue]
    refine Outputs.ite (fun hempty => ?_) fun hsome => ?_
    · obtain rfl := List.length_eq_zero_iff.mp hempty
      refine (exportWriteAll h.writeBytes _).mono fun _ text htext => ⟨.array [], ?_, [], rfl, rfl⟩
      subst htext
      exact .emptyArray (Json.isMark_singleton _) (Json.isMark_singleton _)
    · refine (exportWriteAll h.writeBytes _).bind fun _ bracket hbracket => (writeNewline options h).bind
        fun _ newline hnewline => helements.bind fun _ text htext => (writeNewline options h).bind
        fun _ newline' hnewline' => (writeIndent options h depth).bind fun _ space hspace =>
        (exportWriteAll h.writeBytes _).mono fun _ bracket' hbracket' => ?_
      obtain ⟨rfl, -⟩ | ⟨lead, inner, out, rfl, hlead, hinner, hspells⟩ := htext
      · exact absurd rfl hsome
      subst hbracket hbracket'
      refine ⟨.array out, ?_, out, rfl, hspells⟩
      have hopening := (Json.isMark_singleton 0x5B).append (hnewline.append hlead)
      have hclosing := (Json.isMark_singleton 0x5D).prepend (hnewline'.append hspace)
      have harray := Json.IsValue.array hopening hinner hclosing
      simp only [List.append_assoc] at harray ⊢
      exact harray

/-- Members are written as members, behind what stands before the first of them. -/
theorem printMembers (h : core.Works output) : ∀ {members : List (Bytes × Value)} (first : Bool)
    (depth : UInt32), (∀ u ∈ membersTexts members, IsUtf8 u) →
      Writes output (printMembers core options members first depth) fun _ text =>
        members = [] ∧ text = [] ∨ ∃ lead inner out, text = lead ++ inner ∧ Leads first lead ∧
          Json.AreMembers inner out ∧ SpellsMembers members out
  | [], first, depth, hutf8 => by
    rw [Hrbl.printMembers]
    exact Outputs.pure (.inl ⟨rfl, rfl⟩)
  | (key, value) :: members, first, depth, hutf8 => by
    obtain ⟨⟨chars, hchars⟩, hvalues⟩ := List.forall_mem_cons.mp hutf8
    have hvalue := printValue h depth fun u hu => hvalues u (List.mem_append_left _ hu)
    have hrest := printMembers h false depth fun u hu => hvalues u (List.mem_append_right _ hu)
    refine (printMembers_cons options h hchars hvalue hrest first).mono fun _ text htext => .inr ?_
    obtain ⟨lead, name, mark, inner, more, j, rfl, hlead, hname, hmark, hj, hspells, hmore⟩ := htext
    obtain ⟨rfl, rfl⟩ | ⟨comma, rest, out, rfl, hcomma, hrest, hout⟩ := hmore
    · rw [List.append_nil]
      exact ⟨lead, _, [(chars, j)], rfl, hlead, .one hname hmark hj, chars, j, [], rfl, hchars,
        hspells, rfl⟩
    · exact ⟨lead, _, (chars, j) :: out, rfl, hlead, .cons hname hmark hj hcomma hrest, chars, j,
        out, rfl, hchars, hspells, hout⟩

theorem printElements (h : core.Works output) : ∀ {elements : List Value} (first : Bool)
    (depth : UInt32), (∀ u ∈ elementsTexts elements, IsUtf8 u) →
      Writes output (printElements core options elements first depth) fun _ text =>
        elements = [] ∧ text = [] ∨ ∃ lead inner out, text = lead ++ inner ∧ Leads first lead ∧
          Json.AreElements inner out ∧ SpellsElements elements out
  | [], first, depth, hutf8 => by
    rw [Hrbl.printElements]
    exact Outputs.pure (.inl ⟨rfl, rfl⟩)
  | value :: elements, first, depth, hutf8 => by
    have hvalue := printValue h depth fun u hu => hutf8 u (List.mem_append_left _ hu)
    have hrest := printElements h false depth fun u hu => hutf8 u (List.mem_append_right _ hu)
    refine (printElements_cons options h hvalue hrest first).mono fun _ text htext => .inr ?_
    obtain ⟨lead, inner, more, j, rfl, hlead, hj, hspells, hmore⟩ := htext
    obtain ⟨rfl, rfl⟩ | ⟨comma, rest, out, rfl, hcomma, hrest, hout⟩ := hmore
    · rw [List.append_nil]
      exact ⟨lead, inner, [j], rfl, hlead, .one hj, j, [], rfl, hspells, rfl⟩
    · exact ⟨lead, _, j :: out, rfl, hlead, .cons hj hcomma hrest, j, out, rfl, hspells, hout⟩

end

/-- A document is written as a text for an object with its members. -/
theorem printRoots (h : core.Works output) {document : Document}
    (hutf8 : ∀ u ∈ membersTexts document, IsUtf8 u) :
    Writes output (printRoots core options document) fun _ text =>
      ∃ out, Json.IsText text (.object out) ∧ SpellsMembers document out := by
  have hmembers := printMembers options h true 1 hutf8
  refine Outputs.ite (fun hempty => ?_) fun hsome => ?_
  · obtain rfl := List.length_eq_zero_iff.mp hempty
    refine (exportWriteAll h.writeBytes _).bind fun _ braces hbraces => (writeNewline options h).mono
      fun _ newline hnewline => ?_
    subst hbraces
    exact ⟨[], ⟨[], _, newline, rfl, Json.isSpace_nil, .emptyObject (Json.isMark_singleton _)
      (Json.isMark_singleton _), hnewline⟩, rfl⟩
  · refine (exportWriteAll h.writeBytes _).bind fun _ brace hbrace => (writeNewline options h).bind
      fun _ newline hnewline => (scratchAlloc h _ _).bind fun _ none hnone => hmembers.bind
      fun _ text htext => (writeNewline options h).bind fun _ newline' hnewline' =>
      (exportWriteAll h.writeBytes _).bind fun _ brace' hbrace' => (writeNewline options h).mono
      fun _ last hlast => ?_
    obtain ⟨rfl, -⟩ | ⟨lead, inner, out, rfl, hlead, hinner, hspells⟩ := htext
    · exact absurd rfl hsome
    subst hbrace hnone hbrace'
    have hopening := (Json.isMark_singleton 0x7B).append (hnewline.append hlead)
    have hclosing := (Json.isMark_singleton 0x7D).prepend hnewline'
    have hobject := Json.IsValue.object hopening hinner hclosing
    refine ⟨out, ⟨[], _, last, ?_, Json.isSpace_nil, hobject, hlast⟩, hspells⟩
    simp only [List.append_assoc, List.nil_append]

end Writes

/-! ## Files -/

/-- An export that goes on to its end returns `true`. -/
theorem Writes.exportEnd {output : σ → Bytes} {m : ExportM σ Unit} {Q : Bytes → Prop}
    (h : Writes output m fun _ text => Q text) (world : σ) :
    ∃ world' text, exportEnd m world = (.ok true, world') ∧
      output world' = output world ++ text ∧ Q text := by
  obtain ⟨_, text, s, hrun, hready, houtput, hQ⟩ := h { world, writeFailed := false } rfl
  refine ⟨s.world, text, ?_, houtput, hQ⟩
  have hrun' : m.run { world, writeFailed := false } = .ok () s := hrun
  rw [Hrbl.exportEnd, hrun']
  simp only [hready, Bool.not_false]

/-- The JSON export of a file that a writer returns returns `true`, and what it has written is a
JSON text for the document, with the members of the root and of every block in some order. -/
theorem json_export_denotes {core : Core σ} {output : σ → Bytes} (hcore : core.Works output)
    {env : Env} {options : Option WriterOptions} {ops : List Op} {w : Writer}
    (hrun : (Writer.create options).runs env ops = some w)
    (hclosed : w.currentScope = none) (how : Option ExportOptions) :
    ∃ document : Document, Builder.empty.run ops = some ⟨document, []⟩ ∧
      (documentSize env.hash64 document < 2 ^ 32 → (∀ s ∈ membersTexts document, IsUtf8 s) →
        w.Finalizes env document fun b => ∃ r enough, openBuffer true b = .ok r ∧
          ∀ levels ≥ enough, ∀ world, ∃ world' text document' members,
            exportJsonEx core levels r how world = (.ok true, world') ∧
            output world' = output world ++ text ∧ Json.IsText text (.object members) ∧
            RearrangedDocument List.Perm document document' ∧
            SpellsMembers document' members) := by
  obtain ⟨document, hb, hwritten⟩ := runs_written hrun hclosed
  refine ⟨document, hb, fun hsize hutf8 => ?_⟩
  refine (hwritten hsize).mono fun b hbytes =>
    ⟨_, membersDepth document, openBuffer_document hbytes, ?_⟩
  intro levels hlevels world
  have hdepth : membersDepth (document.inFileOrder env.hash64) ≤ levels := by
    rwa [membersDepth_document]
  obtain ⟨document', horder, hprint⟩ :
      ∃ document', RearrangedDocument (exportOrder how) _ document' ∧ _ :=
    exportRoots_holds hcore.sortWithCompare (holdsDocument_document hbytes hsize) hdepth
  have hfile : RearrangedDocument List.Perm (document.inFileOrder env.hash64) document' :=
    horder.mono fun _ _ => exportOrder.perm
  have hperm : RearrangedDocument List.Perm document document' :=
    (rearrangedDocument_inFileOrder env.hash64 document).trans hfile
  obtain ⟨world', text, hend, houtput, out, htext, hspells⟩ :=
    (Writes.printRoots how hcore fun u hu => hutf8 u (hperm.mem_texts.mp hu)).exportEnd world
  refine ⟨world', text, document', out, ?_, houtput, htext, hperm, hspells⟩
  rw [exportJsonEx, hprint, hend]

theorem plainCore_works : plainCore.Works id := by
  constructor
  case formatHexadecimal => exact fun _ world _ => ⟨world, rfl, rfl⟩
  case formatDouble =>
    intro bits world _
    refine ⟨_, world, rfl, ?_, rfl⟩
    split
    · refine ⟨[], [0x31], [0x2E, 0x35], [], rfl, .inl rfl, .inr ⟨0x31, [], rfl, by decide, ?_⟩,
        .inr ⟨[0x35], rfl, List.cons_ne_nil _ _, ?_⟩, .inl rfl⟩
      · exact List.forall_mem_singleton.mpr ⟨by decide, by decide⟩
      · exact List.forall_mem_singleton.mpr ⟨by decide, by decide⟩
    · exact ⟨[], [0x30], [], [], rfl, .inl rfl, .inl rfl, .inl rfl, .inl rfl⟩
  case sortWithCompare => exact sorts_insertionSortWith
  all_goals exact fun _ world => ⟨_, rfl, rfl⟩

/-- A float, an array, and a string that is not ASCII, compact and in ASCII. -/
theorem json_export_denotes_compact :
    ∃ w b v r enough, (Writer.create none).runs (.succeeding fun key => UInt64.ofNat key.length)
        [.setFloat64 (.data [0x66]) 0x3FF8000000000000, .beginArray (.data [0x61]),
          .appendInt64 (-3), .appendNull, .endArray, .setString (.data []) [0xC3, 0xA9]] = some w ∧
      finalizeToBuffer (.succeeding fun key => UInt64.ofNat key.length) w =
        .returned b.bytes v ∧
      openBuffer true b = .ok r ∧
      ∀ levels ≥ enough, ∀ world, ∃ world' text document' members,
        exportJsonEx plainCore levels r
          (some { indentSpaces := 0, sortKeys := false, asciiOnly := true }) world =
            (.ok true, world') ∧
        world' = world ++ text ∧ Json.IsText text (.object members) ∧
        RearrangedDocument List.Perm [([0x66], .scalar (.float64 0x3FF8000000000000)),
          ([0x61], .array [.scalar (.int64 (-3)), .scalar .null]),
          ([], .scalar (.string [0xC3, 0xA9]))] document' ∧
        SpellsMembers document' members := by
  obtain ⟨w, hrun, hclosed, hworkers⟩ : ∃ w, (Writer.create none).runs
      (.succeeding fun key => UInt64.ofNat key.length)
      [.setFloat64 (.data [0x66]) 0x3FF8000000000000, .beginArray (.data [0x61]),
        .appendInt64 (-3), .appendNull, .endArray, .setString (.data []) [0xC3, 0xA9]] = some w ∧
      w.currentScope = none ∧ WorkersFit w.options.workerCount := ⟨_, rfl, rfl, by decide⟩
  obtain ⟨document, hb, hfile⟩ := json_export_denotes plainCore_works hrun hclosed
    (some { indentSpaces := 0, sortKeys := false, asciiOnly := true })
  cases hb
  have hutf8 : ∀ s ∈ membersTexts [([0x66], .scalar (.float64 0x3FF8000000000000)),
      ([0x61], .array [.scalar (.int64 (-3)), .scalar .null]),
      ([], .scalar (.string [0xC3, 0xA9]))], IsUtf8 s := by
    change ∀ s ∈ [[0x66], [0x61], [], [0xC3, 0xA9]], IsUtf8 s
    simp only [List.forall_mem_cons]
    exact ⟨⟨['f'], by decide⟩, ⟨['a'], by decide⟩, ⟨[], rfl⟩, ⟨['é'], by decide⟩,
      fun _ h => absurd h List.not_mem_nil⟩
  obtain ⟨b, v, hreturned, r, enough, hopen, hexport⟩ :=
    (hfile (by decide +kernel) hutf8).returned (Env.succeeding_succeeds _) hworkers
  exact ⟨w, b, v, r, enough, hrun, hreturned, hopen, hexport⟩

end Hrbl
