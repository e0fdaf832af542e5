import Hrbl.Lib.Json

/-!
# Reading JSON strings

A decoder of string literals, which reads one character after the other. What the grammar
calls a string that stands for characters is decoded to exactly these, so that no literal
stands for two strings; and what is inside of the quotes is escaped.
-/

namespace Lib.Json

/-! ## The decoder -/

/-- The value of a hexadecimal digit. -/
def hexDigitValue (b : UInt8) : Option Nat :=
  if 0x30 ≤ b.toNat ∧ b.toNat ≤ 0x39 then some (b.toNat - 0x30)
  else if 0x41 ≤ b.toNat ∧ b.toNat ≤ 0x46 then some (b.toNat - 0x37)
  else if 0x61 ≤ b.toNat ∧ b.toNat ≤ 0x66 then some (b.toNat - 0x57)
  else none

/-- Four hexadecimal digits, and what follows them. -/
def readQuad : Text → Option (Nat × Text)
  | a :: b :: c :: d :: rest => do
    let i ← hexDigitValue a
    let j ← hexDigitValue b
    let k ← hexDigitValue c
    let l ← hexDigitValue d
    return (((i * 16 + j) * 16 + k) * 16 + l, rest)
  | _ => none

/-- The second half of a surrogate pair. -/
def readLow (high : Nat) : Text → Option (Char × Text)
  | backslash :: u :: rest => do
    if backslash = 0x5C ∧ u = 0x75 then
      let (low, rest) ← readQuad rest
      if 0xDC00 ≤ low ∧ low < 0xE000 then
        return (Char.ofNat (0x10000 + (high - 0xD800) * 0x400 + (low - 0xDC00)), rest)
      else none
    else none
  | _ => none

/-- What follows a backslash and `u`. -/
def readUnicode (text : Text) : Option (Char × Text) := do
  let (unit, rest) ← readQuad text
  if 0xD800 ≤ unit ∧ unit < 0xDC00 then readLow unit rest
  else if 0xDC00 ≤ unit ∧ unit < 0xE000 then none
  else return (Char.ofNat unit, rest)

/-- One character, and what follows it. -/
def readChar : Text → Option (Char × Text)
  | [] => none
  | b :: rest =>
    if b = 0x5C then
      match rest with
      | [] => none
      | letter :: rest =>
        if letter = 0x75 then readUnicode rest else (escapes.lookup letter).map fun c => (c, rest)
    else if b = 0x22 ∨ b < 0x20 then none
    else ((b :: rest).toByteArray.utf8DecodeChar? 0).map fun c =>
      (c, (b :: rest).drop c.utf8Size)

/-- The characters up to the closing quote, which ends the text. -/
def readChars (text : Text) : Option (List Char) :=
  if text = [0x22] then some []
  else
    match readChar text with
    | none => none
    | some (c, rest) =>
      if rest.length < text.length then (readChars rest).map fun chars => c :: chars else none
termination_by text.length

/-- A string literal. -/
def decodeString : Text → Option (List Char)
  | [] => none
  | b :: text => if b = 0x22 then readChars text else none

/-! ## It reads what the grammar says -/

theorem hexDigitValue_eq {b : UInt8} {n : Nat} (h : IsHexDigit b n) : hexDigitValue b = some n := by
  have hall : ∀ m : Fin 16, (m.val < 10 → hexDigitValue (UInt8.ofNat (0x30 + m)) = some m.val) ∧
      (10 ≤ m.val → hexDigitValue (UInt8.ofNat (0x37 + m)) = some m.val ∧
        hexDigitValue (UInt8.ofNat (0x57 + m)) = some m.val) := by decide +kernel
  obtain ⟨hlt, h⟩ := h
  rcases h with ⟨rfl, hn⟩ | ⟨rfl, hn⟩ | ⟨rfl, hn⟩
  · exact (hall ⟨n, hlt⟩).1 hn
  · exact ((hall ⟨n, hlt⟩).2 hn).1
  · exact ((hall ⟨n, hlt⟩).2 hn).2

theorem readQuad_append {quad : Text} {n : Nat} (h : IsHexQuad quad n) (rest : Text) :
    readQuad (quad ++ rest) = some (n, rest) := by
  obtain ⟨a, b, c, d, i, j, k, l, rfl, ha, hb, hc, hd, rfl⟩ := h
  simp only [List.cons_append, List.nil_append, readQuad, hexDigitValue_eq ha,
    hexDigitValue_eq hb, hexDigitValue_eq hc, hexDigitValue_eq hd]
  rfl

/-- No scalar value is a surrogate. -/
theorem not_surrogate (c : Char) : ¬(0xD800 ≤ c.toNat ∧ c.toNat < 0xE000) := by
  have hvalid : c.toNat < 0xD800 ∨ 0xDFFF < c.toNat ∧ c.toNat < 0x110000 := c.valid
  omega

theorem lookup_escapes {letter : UInt8} {c : Char} (h : (letter, c) ∈ escapes) :
    letter ≠ 0x75 ∧ escapes.lookup letter = some c := by
  have hall : ∀ p ∈ escapes, p.1 ≠ 0x75 ∧ escapes.lookup p.1 = some p.2 := by decide
  exact hall _ h

/-- The bytes of an encoding are its ASCII character, or they are not ASCII. -/
theorem utf8EncodeChar_bytes (c : Char) :
    c.toNat < 0x80 ∧ String.utf8EncodeChar c = [UInt8.ofNat c.toNat] ∨
      0x80 ≤ c.toNat ∧ ∀ b ∈ String.utf8EncodeChar c, 0x80 ≤ b.toNat := by
  have hval : c.val.toNat = c.toNat := rfl
  have hbyte : ∀ n, 0x80 ≤ n → n < 0x100 → 0x80 ≤ n.toUInt8.toNat := by
    intro n hle hlt
    have heq : n.toUInt8.toNat = n := toNat_ofNat_byte hlt
    rwa [heq]
  simp only [String.utf8EncodeChar, hval]
  -- the four forms
  by_cases h₁ : c.toNat ≤ 0x7F
  · rw [if_pos h₁]
    exact .inl ⟨by omega, rfl⟩
  · refine .inr ⟨by omega, ?_⟩
    rw [if_neg h₁]
    split
    · simp only [List.forall_mem_cons]
      exact ⟨hbyte _ (by omega) (by omega), hbyte _ (by omega) (by omega),
        fun _ h => absurd h List.not_mem_nil⟩
    · split
      · simp only [List.forall_mem_cons]
        exact ⟨hbyte _ (by omega) (by omega), hbyte _ (by omega) (by omega),
          hbyte _ (by omega) (by omega), fun _ h => absurd h List.not_mem_nil⟩
      · simp only [List.forall_mem_cons]
        exact ⟨hbyte _ (by omega) (by omega), hbyte _ (by omega) (by omega),
          hbyte _ (by omega) (by omega), hbyte _ (by omega) (by omega),
          fun _ h => absurd h List.not_mem_nil⟩

/-- The bytes of a character that may stand unescaped. -/
theorem utf8EncodeChar_plain {c : Char} (hcontrol : 0x20 ≤ c.toNat) (hquote : c ≠ '"')
    (hbackslash : c ≠ '\\') :
    ∀ b ∈ String.utf8EncodeChar c, ¬b < 0x20 ∧ b ≠ 0x22 ∧ b ≠ 0x5C := by
  have htoNat : ∀ b : UInt8, (b < 0x20 ↔ b.toNat < 0x20) ∧ (b = 0x22 ↔ b.toNat = 0x22) ∧
      (b = 0x5C ↔ b.toNat = 0x5C) := fun b =>
    ⟨UInt8.lt_iff_toNat_lt, UInt8.toNat_inj.symm, UInt8.toNat_inj.symm⟩
  intro b hb
  obtain ⟨hlt, h22, h5C⟩ := htoNat b
  rw [hlt, ne_eq, ne_eq, h22, h5C]
  rcases utf8EncodeChar_bytes c with ⟨hascii, hencoding⟩ | ⟨hhigh, hall⟩
  · rw [hencoding, List.mem_singleton] at hb
    have hbyte : b.toNat = c.toNat := hb ▸ toNat_ofNat_byte (by omega)
    rw [hbyte]
    exact ⟨by omega, fun h => hquote (Char.toNat_inj.mp h), fun h => hbackslash (Char.toNat_inj.mp h)⟩
  · have := hall b hb
    omega

/-- The character that a text stands for is read from it, and nothing else is. -/
theorem IsChar.read {text : Text} {c : Char} (h : IsChar text c) (rest : Text) :
    readChar (text ++ rest) = some (c, rest) := by
  cases h with
  | unescaped c hcontrol hquote hbackslash =>
    obtain ⟨b, tails, hbytes⟩ : ∃ b tails, String.utf8EncodeChar c = b :: tails :=
      List.exists_cons_of_length_pos (String.length_utf8EncodeChar c ▸ c.utf8Size_pos)
    have hplain := utf8EncodeChar_plain hcontrol hquote hbackslash b
      (by rw [hbytes]; exact List.mem_cons_self)
    have hdecode : (String.utf8EncodeChar c ++ rest).toByteArray.utf8DecodeChar? 0 = some c := by
      rw [List.toByteArray_append]
      exact ByteArray.utf8DecodeChar?_utf8EncodeChar_append
    have hdrop : (String.utf8EncodeChar c ++ rest).drop c.utf8Size = rest := by
      rw [← String.length_utf8EncodeChar, List.drop_left]
    rw [hbytes, List.cons_append] at hdecode hdrop ⊢
    rw [readChar.eq_def]
    dsimp only
    rw [if_neg hplain.2.2, if_neg (not_or.mpr ⟨hplain.2.1, hplain.1⟩), hdecode,
      Option.map_some, hdrop]
  | escape letter c hmem =>
    obtain ⟨hnot, hlookup⟩ := lookup_escapes hmem
    have hread : readChar ([0x5C, letter] ++ rest) =
        if letter = 0x75 then readUnicode rest
        else (escapes.lookup letter).map fun c => (c, rest) := rfl
    rw [hread, if_neg hnot, hlookup, Option.map_some]
  | unicode quad c hquad =>
    have hscalar := not_surrogate c
    have hread : readChar (0x5C :: 0x75 :: quad ++ rest) = readUnicode (quad ++ rest) := rfl
    rw [hread, readUnicode, readQuad_append hquad]
    change (if _ then _ else _ : Option (Char × Text)) = _
    rw [if_neg (by omega), if_neg (by omega), Char.ofNat_toNat]
    rfl
  | surrogates high low h l c hhigh hlow hh hh' hl hl' hc =>
    have hread : readChar (0x5C :: 0x75 :: high ++ (0x5C :: 0x75 :: low ++ rest)) =
        readUnicode (high ++ (0x5C :: 0x75 :: low ++ rest)) := rfl
    rw [List.append_assoc, hread, readUnicode, readQuad_append hhigh]
    change (if _ then _ else _ : Option (Char × Text)) = _
    rw [if_pos ⟨hh, hh'⟩, List.cons_append, List.cons_append, readLow, if_pos ⟨rfl, rfl⟩,
      readQuad_append hlow]
    change (if _ then _ else _ : Option (Char × Text)) = _
    rw [if_pos ⟨hl, hl'⟩, ← hc, Char.ofNat_toNat]
    rfl

theorem readChar_quote : readChar [0x22] = none := rfl

theorem IsChar.ne_nil {text : Text} {c : Char} (h : IsChar text c) : text ≠ [] := by
  rintro rfl
  have hread := h.read []
  cases hread

theorem AreChars.read {body : Text} {chars : List Char} (h : AreChars body chars) :
    readChars (body ++ [0x22]) = some chars := by
  induction h with
  | nil => rw [List.nil_append, readChars, if_pos rfl]
  | @cons text rest c chars hchar hrest ih =>
    have hread := hchar.read (rest ++ [0x22])
    rw [← List.append_assoc] at hread
    have hne : text ++ rest ++ [0x22] ≠ [0x22] := by
      intro heq
      rw [heq, readChar_quote] at hread
      cases hread
    have hpos := List.length_pos_of_ne_nil hchar.ne_nil
    have hshorter : (rest ++ [0x22]).length < (text ++ rest ++ [0x22]).length := by
      have hlength : (text ++ (rest ++ [0x22])).length = text.length + (rest ++ [0x22]).length :=
        List.length_append
      rw [List.append_assoc, hlength]
      omega
    rw [readChars, if_neg hne, hread]
    simp only
    rw [if_pos hshorter, ih, Option.map_some]

/-- A string literal is decoded to the characters it stands for. -/
theorem IsString.decode {text : Text} {chars : List Char} (h : IsString text chars) :
    decodeString text = some chars := by
  obtain ⟨body, rfl, hbody⟩ := h
  rw [List.singleton_append, decodeString, if_pos rfl]
  exact hbody.read

/-! ## Escaped texts -/

/-- No byte is a control character, and a quote or a backslash stands only right behind the
backslash that escapes it. -/
def isEscaped : Text → Bool
  | [] => true
  | [b] => ¬b < 0x20 ∧ b ≠ 0x22 ∧ b ≠ 0x5C
  | b :: e :: rest =>
    if b = 0x5C then ¬e < 0x20 ∧ isEscaped rest
    else (¬b < 0x20 ∧ b ≠ 0x22) ∧ isEscaped (e :: rest)

theorem isEscaped_cons_plain {b : UInt8} (hb : ¬b < 0x20 ∧ b ≠ 0x22 ∧ b ≠ 0x5C) {rest : Text}
    (h : isEscaped rest = true) : isEscaped (b :: rest) = true := by
  cases rest with
  | nil => simpa only [isEscaped, decide_eq_true_eq] using hb
  | cons e rest =>
    rw [isEscaped, if_neg hb.2.2, decide_eq_true ⟨⟨hb.1, hb.2.1⟩, h⟩]

theorem isEscaped_append_plain {text rest : Text}
    (htext : ∀ b ∈ text, ¬b < 0x20 ∧ b ≠ 0x22 ∧ b ≠ 0x5C) (h : isEscaped rest = true) :
    isEscaped (text ++ rest) = true := by
  induction text with
  | nil => exact h
  | cons b text ih =>
    rw [List.forall_mem_cons] at htext
    exact isEscaped_cons_plain htext.1 (ih htext.2)

theorem isEscaped_escape {e : UInt8} (he : ¬e < 0x20) {rest : Text} (h : isEscaped rest = true) :
    isEscaped (0x5C :: e :: rest) = true := by
  rw [isEscaped, if_pos rfl, decide_eq_true ⟨he, h⟩]

theorem IsHexQuad.plain {quad : Text} {n : Nat} (h : IsHexQuad quad n) :
    ∀ b ∈ quad, b < 0x80 ∧ ¬b < 0x20 ∧ b ≠ 0x22 ∧ b ≠ 0x5C := by
  have hall : ∀ b : UInt8, ∀ m, IsHexDigit b m → b < 0x80 ∧ ¬b < 0x20 ∧ b ≠ 0x22 ∧ b ≠ 0x5C := by
    have hdigits : ∀ m : Fin 16, ∀ base ∈ [0x30, 0x37, 0x57],
        (m.val < 10 ∨ base ≠ 0x30) → (10 ≤ m.val ∨ base = 0x30) →
        UInt8.ofNat (base + m) < 0x80 ∧ ¬UInt8.ofNat (base + m) < 0x20 ∧
          UInt8.ofNat (base + m) ≠ 0x22 ∧ UInt8.ofNat (base + m) ≠ 0x5C := by decide +kernel
    rintro b m ⟨hlt, ⟨rfl, hm⟩ | ⟨rfl, hm⟩ | ⟨rfl, hm⟩⟩
    · exact hdigits ⟨m, hlt⟩ 0x30 (by decide) (.inl hm) (.inr rfl)
    · exact hdigits ⟨m, hlt⟩ 0x37 (by decide) (.inr (by decide)) (.inl hm)
    · exact hdigits ⟨m, hlt⟩ 0x57 (by decide) (.inr (by decide)) (.inl hm)
  obtain ⟨a, b, c, d, i, j, k, l, rfl, ha, hb, hc, hd, -⟩ := h
  simp only [List.forall_mem_cons]
  exact ⟨hall _ _ ha, hall _ _ hb, hall _ _ hc, hall _ _ hd, fun _ h => absurd h List.not_mem_nil⟩

theorem IsChar.escaped {text : Text} {c : Char} (h : IsChar text c) {rest : Text}
    (hrest : isEscaped rest = true) : isEscaped (text ++ rest) = true := by
  cases h with
  | unescaped c hcontrol hquote hbackslash =>
    exact isEscaped_append_plain (utf8EncodeChar_plain hcontrol hquote hbackslash) hrest
  | escape letter c hmem =>
    have hall : ∀ p ∈ escapes, ¬p.1 < 0x20 := by decide
    exact isEscaped_escape (hall _ hmem) hrest
  | unicode quad c hquad =>
    exact isEscaped_escape (by decide)
      (isEscaped_append_plain (fun b hb => (hquad.plain b hb).2) hrest)
  | surrogates high low h l c hhigh hlow hh hh' hl hl' hc =>
    rw [List.append_assoc]
    exact isEscaped_escape (by decide) (isEscaped_append_plain (fun b hb => (hhigh.plain b hb).2)
      (isEscaped_escape (by decide) (isEscaped_append_plain (fun b hb => (hlow.plain b hb).2) hrest)))

/-- What stands between the quotes is escaped. -/
theorem AreChars.escaped {body : Text} {chars : List Char} (h : AreChars body chars) :
    isEscaped body = true := by
  induction h with
  | nil => rfl
  | cons hchar hrest ih => exact hchar.escaped ih

/-! ## Surrogate pairs -/

/-- Two escapes, whose code units are the surrogates of a code point above the basic plane. -/
def IsSurrogatePair (text : Text) (codepoint : Nat) : Prop :=
  ∃ high low h l, text = (0x5C :: 0x75 :: high) ++ (0x5C :: 0x75 :: low) ∧ IsHexQuad high h ∧
    IsHexQuad low l ∧ 0xD800 ≤ h ∧ h < 0xDC00 ∧ 0xDC00 ≤ l ∧ l < 0xE000 ∧
    codepoint = 0x10000 + (h - 0xD800) * 0x400 + (l - 0xDC00)

/-- In ASCII, a character above the basic plane is a surrogate pair. -/
theorem IsChar.isSurrogatePair {text : Text} {c : Char} (h : IsChar text c)
    (hascii : ∀ b ∈ text, b < 0x80) (hplane : 0xFFFF < c.toNat) :
    IsSurrogatePair text c.toNat := by
  cases h with
  | unescaped c hcontrol hquote hbackslash =>
    obtain ⟨b, tails, hbytes⟩ : ∃ b tails, String.utf8EncodeChar c = b :: tails :=
      List.exists_cons_of_length_pos (String.length_utf8EncodeChar c ▸ c.utf8Size_pos)
    have hb : b ∈ String.utf8EncodeChar c := by
      rw [hbytes]
      exact List.mem_cons_self
    have hlow := UInt8.lt_iff_toNat_lt.mp (hascii b hb)
    rcases utf8EncodeChar_bytes c with ⟨hsmall, -⟩ | ⟨-, hhigh⟩
    · omega
    · exact absurd hlow (Nat.not_lt.mpr (hhigh b hb))
  | escape letter c hmem =>
    have hall : ∀ p ∈ escapes, p.2.toNat < 0x80 := by decide
    have hsmall : c.toNat < 0x80 := hall _ hmem
    omega
  | unicode quad c hquad =>
    obtain ⟨a, b, d, e, i, j, k, l, -, ha, hb, hd, he, hvalue⟩ := hquad
    have hi := ha.1
    have hj := hb.1
    have hk := hd.1
    have hl := he.1
    omega
  | surrogates high low h l c hhigh hlow hh hh' hl hl' hc =>
    exact ⟨high, low, h, l, rfl, hhigh, hlow, hh, hh', hl, hl', hc⟩

/-- Characters one by one. -/
theorem areChars_iff {body : Text} {chars : List Char} :
    AreChars body chars ↔ ∃ pieces, body = pieces.flatten ∧ List.Forall₂ IsChar pieces chars := by
  constructor
  · intro h
    induction h with
    | nil => exact ⟨[], rfl, .nil⟩
    | @cons text rest c chars hchar hrest ih =>
      obtain ⟨pieces, rfl, hpieces⟩ := ih
      exact ⟨text :: pieces, rfl, .cons hchar hpieces⟩
  · rintro ⟨pieces, rfl, hpieces⟩
    induction hpieces with
    | nil => exact .nil
    | cons hchar hrest ih => exact .cons hchar ih

end Lib.Json
