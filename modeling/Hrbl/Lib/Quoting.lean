import Hrbl.Lib.JsonDecode

/-!
# Quoted texts

Texts between two quotes, in which a backslash starts an escape: it is followed by a letter with a
meaning of its own, or by `x` and two hexadecimal digits. A decoder reads such a text one byte
after the other, and a piece stands for a byte where the decoder reads it so, whatever follows.
-/

namespace Lib.Quoting

/-- The bytes of a text. -/
abbrev Text := List UInt8

/-- The letters of escapes, and the bytes that they stand for. -/
def letters : List (UInt8 × UInt8) :=
  [(0x5C, 0x5C), (0x22, 0x22), (0x6E, 0x0A), (0x72, 0x0D), (0x74, 0x09)]

/-- Where the decoder is. -/
inductive Phase where
  | plain
  | letter
  | high
  | low (first : Nat)
deriving Repr, DecidableEq

/-- What the decoder makes of a byte. A quote and a control byte have to be escaped. -/
def Phase.read : Phase → UInt8 → Option (Phase × Text)
  | .plain, c =>
    if c = 0x5C then some (.letter, [])
    else if c = 0x22 ∨ c < 0x20 then none
    else some (.plain, [c])
  | .letter, c =>
    if c = 0x78 then some (.high, []) else (letters.lookup c).map fun b => (.plain, [b])
  | .high, c => (Json.hexDigitValue c).map fun n => (.low n, [])
  | .low first, c => (Json.hexDigitValue c).map fun n => (.plain, [UInt8.ofNat (first * 16 + n)])

/-- The rest of a text, from a phase on. -/
def unescapeFrom : Phase → Text → Option Text
  | .plain, [] => some []
  | _, [] => none
  | phase, c :: rest =>
    match phase.read c with
    | none => none
    | some (phase', bytes) => (unescapeFrom phase' rest).map fun more => bytes ++ more

/-- The bytes that a text between quotes stands for. -/
def unescape (text : Text) : Option Text := unescapeFrom .plain text

theorem unescapeFrom_cons {phase phase' : Phase} {c : UInt8} {bytes : Text}
    (h : phase.read c = some (phase', bytes)) (rest : Text) :
    unescapeFrom phase (c :: rest) = (unescapeFrom phase' rest).map fun more => bytes ++ more := by
  rw [unescapeFrom, h]

/-- A quote closes the text; a backslash hides the byte behind it. -/
def closes (hidden : Bool) : Text → Bool
  | [] => false
  | c :: rest =>
    if hidden then closes false rest
    else if c = 0x22 then true
    else closes (c = 0x5C) rest

/-- The text between the quotes is one, with no quote of its own and nothing that is not printed,
and stands for these bytes. -/
structure Stands (text bytes : Text) : Prop where
  printed : ∀ c ∈ text, 0x20 ≤ c
  open_ : closes false text = false
  unescape : unescape text = some bytes

/-- A piece stands for a byte in front of whatever follows. -/
structure StandsFor (piece : Text) (c : UInt8) : Prop where
  printed : ∀ b ∈ piece, 0x20 ≤ b
  open_ : ∀ rest, closes false (piece ++ rest) = closes false rest
  unescape : ∀ rest, Quoting.unescape (piece ++ rest) =
    (Quoting.unescape rest).map fun more => c :: more

namespace StandsFor

/-- A byte stands for itself, except for the control bytes, the quote and the backslash. -/
theorem plain {c : UInt8} (hquote : c ≠ 0x22) (hbackslash : c ≠ 0x5C) (hprinted : 0x20 ≤ c) :
    StandsFor [c] c := by
  constructor
  · exact List.forall_mem_singleton.mpr hprinted
  · intro rest
    have hmark : decide (c = 0x5C) = false := decide_eq_false hbackslash
    rw [List.singleton_append, closes, if_neg Bool.false_ne_true, if_neg hquote, hmark]
  · intro rest
    have hread : Phase.read .plain c = some (.plain, [c]) := by
      rw [Phase.read, if_neg hbackslash, if_neg]
      rintro (hc | hc)
      · exact hquote hc
      · exact absurd hprinted (UInt8.not_le.mpr hc)
    exact unescapeFrom_cons hread rest

/-- An escape with a letter. -/
theorem letter {letter c : UInt8} (h : (letter, c) ∈ letters) : StandsFor [0x5C, letter] c := by
  obtain ⟨hprinted, hletter, hlookup⟩ :
      0x20 ≤ letter ∧ letter ≠ 0x78 ∧ letters.lookup letter = some c := by
    simp only [letters, List.mem_cons, Prod.mk.injEq, List.not_mem_nil, or_false] at h
    rcases h with ⟨rfl, rfl⟩ | ⟨rfl, rfl⟩ | ⟨rfl, rfl⟩ | ⟨rfl, rfl⟩ | ⟨rfl, rfl⟩
    all_goals exact ⟨by decide, by decide, rfl⟩
  constructor
  · intro b hb
    rcases List.mem_cons.mp hb with rfl | hb
    · decide
    · exact List.mem_singleton.mp hb ▸ hprinted
  · intro rest
    rfl
  · intro rest
    have hread : Phase.read .letter letter = some (.plain, [c]) := by
      rw [Phase.read, if_neg hletter, hlookup]
      rfl
    have hmark : Phase.read .plain 0x5C = some (.letter, []) := rfl
    rw [Quoting.unescape, List.cons_append, unescapeFrom_cons hmark, List.singleton_append,
      unescapeFrom_cons hread, Option.map_map]
    rfl

/-- A hexadecimal digit is none of the bytes with a meaning. -/
theorem hexDigit_ne {b : UInt8} {n : Nat} (h : Json.IsHexDigit b n) :
    0x20 ≤ b ∧ b ≠ 0x22 ∧ b ≠ 0x5C := by
  have hall : ∀ m : Fin 16, ∀ start : Fin 3, ∀ b ∈ [UInt8.ofNat (0x30 + m),
      UInt8.ofNat (0x37 + m), UInt8.ofNat (0x57 + m)][start.val]?,
        (m.val < 10 ↔ start = 0) → 0x20 ≤ b ∧ b ≠ 0x22 ∧ b ≠ 0x5C := by decide +kernel
  obtain ⟨hlt, hb⟩ := h
  rcases hb with ⟨rfl, hn⟩ | ⟨rfl, hn⟩ | ⟨rfl, hn⟩
  · exact hall ⟨n, hlt⟩ 0 _ rfl (iff_of_true hn rfl)
  · exact hall ⟨n, hlt⟩ 1 _ rfl (iff_of_false (Nat.not_lt.mpr hn) (by decide))
  · exact hall ⟨n, hlt⟩ 2 _ rfl (iff_of_false (Nat.not_lt.mpr hn) (by decide))

/-- An escape with two hexadecimal digits. -/
theorem hex {high low c : UInt8} (hhigh : Json.IsHexDigit high (c.toNat / 16))
    (hlow : Json.IsHexDigit low (c.toNat % 16)) : StandsFor [0x5C, 0x78, high, low] c := by
  obtain ⟨hprinted, hquote, hbackslash⟩ := hexDigit_ne hhigh
  obtain ⟨hprinted', hquote', hbackslash'⟩ := hexDigit_ne hlow
  constructor
  · simp only [List.forall_mem_cons]
    exact ⟨by decide, by decide, hprinted, hprinted', fun b hb => absurd hb List.not_mem_nil⟩
  · intro rest
    have hfirst : closes false ([0x5C, 0x78, high, low] ++ rest) =
        closes false (high :: low :: rest) := rfl
    have hmark : decide (high = 0x5C) = false := decide_eq_false hbackslash
    have hmark' : decide (low = 0x5C) = false := decide_eq_false hbackslash'
    rw [hfirst, closes, if_neg Bool.false_ne_true, if_neg hquote, hmark, closes,
      if_neg Bool.false_ne_true, if_neg hquote', hmark']
  · intro rest
    have hmark : Phase.read .plain 0x5C = some (.letter, []) := rfl
    have hx : Phase.read .letter 0x78 = some (.high, []) := rfl
    have hfirst : Phase.read .high high = some (.low (c.toNat / 16), []) := by
      rw [Phase.read, Json.hexDigitValue_eq hhigh]
      rfl
    have hsecond : Phase.read (.low (c.toNat / 16)) low = some (.plain, [c]) := by
      have hsum : c.toNat / 16 * 16 + c.toNat % 16 = c.toNat := by omega
      rw [Phase.read, Json.hexDigitValue_eq hlow, Option.map_some, hsum, UInt8.ofNat_toNat]
    simp only [Quoting.unescape, List.cons_append, List.nil_append, unescapeFrom_cons hmark,
      unescapeFrom_cons hx, unescapeFrom_cons hfirst, unescapeFrom_cons hsecond, Option.map_map]
    rfl

end StandsFor

/-- Pieces one behind the other stand for their bytes. -/
theorem stands_flatten {pieces : List Text} {bytes : Text}
    (h : List.Forall₂ StandsFor pieces bytes) : Stands pieces.flatten bytes := by
  induction h with
  | nil => exact ⟨fun c hc => absurd hc List.not_mem_nil, rfl, rfl⟩
  | cons hpiece _ ih =>
    rw [List.flatten_cons]
    constructor
    · intro c hc
      rcases List.mem_append.mp hc with hc | hc
      · exact hpiece.printed c hc
      · exact ih.printed c hc
    · rw [hpiece.open_]
      exact ih.open_
    · rw [hpiece.unescape, ih.unescape]
      rfl

/-- A text stands for one string of bytes only. -/
theorem Stands.unique {text bytes bytes' : Text} (h : Stands text bytes)
    (h' : Stands text bytes') : bytes = bytes' :=
  Option.some.inj (h.unescape.symm.trans h'.unescape)

end Lib.Quoting
