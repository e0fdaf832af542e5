import Hrbl.Lib.Bytes

/-!
# JSON texts

The grammar of JSON texts, as bytes in UTF-8, with the values they stand for: a number
stands for its token, a string for its characters, and an object for its members in their
order. Numbers in decimal, as formatters print them, are such tokens.
-/

namespace Lib.Json

/-- The bytes of a text. -/
abbrev Text := List UInt8

/-! ## Digits -/

/-- `0` to `9`. -/
def IsDigit (b : UInt8) : Prop := 0x30 ≤ b.toNat ∧ b.toNat ≤ 0x39

/-- The number that digits stand for. -/
def digitsValue (digits : Text) : Nat := digits.foldl (fun n b => n * 10 + (b.toNat - 0x30)) 0

/-- One digit. -/
def digit (d : Nat) : UInt8 := UInt8.ofNat (0x30 + d)

/-- A natural number in decimal. -/
def decimalNat (n : Nat) : Text :=
  if n = 0 then [0x30] else (Nat.digits 10 n).reverse.map digit

/-- An integer in decimal. -/
def decimalInt (v : Int) : Text :=
  if 0 ≤ v then decimalNat v.natAbs else 0x2D :: decimalNat v.natAbs

/-- One hexadecimal digit, in lower case. -/
def hexDigit (n : Nat) : UInt8 := UInt8.ofNat (if n < 10 then 0x30 + n else 0x57 + n)

/-- So many hexadecimal digits of a number, in lower case. -/
def hexDigits : Nat → Nat → Text
  | 0, _ => []
  | width + 1, n => hexDigits width (n / 16) ++ [hexDigit (n % 16)]

/-! ## Numbers -/

/-- `int`: no zero stands before other digits. -/
def IsInt (digits : Text) : Prop :=
  digits = [0x30] ∨ ∃ d ds, digits = d :: ds ∧ d ≠ 0x30 ∧ ∀ b ∈ digits, IsDigit b

/-- One or more digits. -/
def AreDigits (digits : Text) : Prop := digits ≠ [] ∧ ∀ b ∈ digits, IsDigit b

/-- `[ frac ]`. -/
def IsFrac (text : Text) : Prop := text = [] ∨ ∃ digits, text = 0x2E :: digits ∧ AreDigits digits

/-- `[ exp ]`. -/
def IsExp (text : Text) : Prop :=
  text = [] ∨ ∃ e sign digits, text = e :: (sign ++ digits) ∧ (e = 0x65 ∨ e = 0x45) ∧
    (sign = [] ∨ sign = [0x2B] ∨ sign = [0x2D]) ∧ AreDigits digits

/-- `[ minus ]`. -/
def IsMinus (text : Text) : Prop := text = [] ∨ text = [0x2D]

/-- `number`. -/
def IsNumber (token : Text) : Prop :=
  ∃ minus int frac exp, token = minus ++ int ++ frac ++ exp ∧ IsMinus minus ∧ IsInt int ∧
    IsFrac frac ∧ IsExp exp

/-- A number without a fraction and without an exponent, and the integer it stands for. -/
def IsInteger (token : Text) (v : Int) : Prop :=
  ∃ digits, IsInt digits ∧ (token = digits ∧ v = digitsValue digits ∨
    token = 0x2D :: digits ∧ v = -digitsValue digits)

/-! ## Strings -/

/-- `HEXDIG`, with its value. -/
def IsHexDigit (b : UInt8) (n : Nat) : Prop :=
  n < 16 ∧ (b = UInt8.ofNat (0x30 + n) ∧ n < 10 ∨ b = UInt8.ofNat (0x37 + n) ∧ 10 ≤ n ∨
    b = UInt8.ofNat (0x57 + n) ∧ 10 ≤ n)

instance (b : UInt8) (n : Nat) : Decidable (IsHexDigit b n) :=
  inferInstanceAs (Decidable (_ ∧ _))

/-- `4HEXDIG`, with its value. -/
def IsHexQuad (text : Text) (n : Nat) : Prop :=
  ∃ a b c d i j k l, text = [a, b, c, d] ∧ IsHexDigit a i ∧ IsHexDigit b j ∧ IsHexDigit c k ∧
    IsHexDigit d l ∧ n = ((i * 16 + j) * 16 + k) * 16 + l

/-- The characters with an escape of their own, and its letter. -/
def escapes : List (UInt8 × Char) :=
  [(0x22, '"'), (0x5C, '\\'), (0x2F, '/'), (0x62, '\x08'), (0x66, '\x0C'), (0x6E, '\n'),
    (0x72, '\x0D'), (0x74, '\t')]

/-- `char`, with the character it stands for. -/
inductive IsChar : Text → Char → Prop
  | unescaped (c : Char) : 0x20 ≤ c.toNat → c ≠ '"' → c ≠ '\\' →
      IsChar (String.utf8EncodeChar c) c
  | escape (letter : UInt8) (c : Char) : (letter, c) ∈ escapes → IsChar [0x5C, letter] c
  | unicode (quad : Text) (c : Char) : IsHexQuad quad c.toNat → IsChar (0x5C :: 0x75 :: quad) c
  | surrogates (high low : Text) (h l : Nat) (c : Char) : IsHexQuad high h → IsHexQuad low l →
      0xD800 ≤ h → h < 0xDC00 → 0xDC00 ≤ l → l < 0xE000 →
      c.toNat = 0x10000 + (h - 0xD800) * 0x400 + (l - 0xDC00) →
      IsChar ((0x5C :: 0x75 :: high) ++ (0x5C :: 0x75 :: low)) c

/-- `*char`. -/
inductive AreChars : Text → List Char → Prop
  | nil : AreChars [] []
  | cons {text rest : Text} {c : Char} {chars : List Char} : IsChar text c → AreChars rest chars →
      AreChars (text ++ rest) (c :: chars)

/-- `string`. -/
def IsString (text : Text) (chars : List Char) : Prop :=
  ∃ body, text = [0x22] ++ (body ++ [0x22]) ∧ AreChars body chars

/-! ## Values -/

/-- What a text stands for. -/
inductive Value where
  | null
  | bool (value : Bool)
  | number (token : Text)
  | string (chars : List Char)
  | array (elements : List Value)
  | object (members : List (List Char × Value))

/-- `ws`. -/
def IsSpace (text : Text) : Prop := ∀ b ∈ text, b = 0x20 ∨ b = 0x09 ∨ b = 0x0A ∨ b = 0x0D

/-- A structural character: this byte, with `ws` on both sides. -/
def IsMark (mark : UInt8) (text : Text) : Prop :=
  ∃ before after, text = before ++ [mark] ++ after ∧ IsSpace before ∧ IsSpace after

mutual

/-- `value`. -/
inductive IsValue : Text → Value → Prop
  | null : IsValue [0x6E, 0x75, 0x6C, 0x6C] .null
  | false : IsValue [0x66, 0x61, 0x6C, 0x73, 0x65] (.bool false)
  | true : IsValue [0x74, 0x72, 0x75, 0x65] (.bool true)
  | number {token : Text} : IsNumber token → IsValue token (.number token)
  | string {text : Text} {chars : List Char} : IsString text chars → IsValue text (.string chars)
  | emptyArray {opening closing : Text} : IsMark 0x5B opening → IsMark 0x5D closing →
      IsValue (opening ++ closing) (.array [])
  | array {opening text closing : Text} {elements : List Value} : IsMark 0x5B opening →
      AreElements text elements → IsMark 0x5D closing →
      IsValue (opening ++ (text ++ closing)) (.array elements)
  | emptyObject {opening closing : Text} : IsMark 0x7B opening → IsMark 0x7D closing →
      IsValue (opening ++ closing) (.object [])
  | object {opening text closing : Text} {members : List (List Char × Value)} :
      IsMark 0x7B opening → AreMembers text members → IsMark 0x7D closing →
      IsValue (opening ++ (text ++ closing)) (.object members)

/-- `value *( value-separator value )`. -/
inductive AreElements : Text → List Value → Prop
  | one {text : Text} {value : Value} : IsValue text value → AreElements text [value]
  | cons {text separator rest : Text} {value : Value} {elements : List Value} :
      IsValue text value → IsMark 0x2C separator → AreElements rest elements →
      AreElements (text ++ (separator ++ rest)) (value :: elements)

/-- `member *( value-separator member )`. -/
inductive AreMembers : Text → List (List Char × Value) → Prop
  | one {name separator text : Text} {chars : List Char} {value : Value} : IsString name chars →
      IsMark 0x3A separator → IsValue text value →
      AreMembers (name ++ (separator ++ text)) [(chars, value)]
  | cons {name separator text comma rest : Text} {chars : List Char} {value : Value}
      {members : List (List Char × Value)} : IsString name chars → IsMark 0x3A separator →
      IsValue text value → IsMark 0x2C comma → AreMembers rest members →
      AreMembers (name ++ (separator ++ (text ++ (comma ++ rest)))) ((chars, value) :: members)

end

/-- `JSON-text`. -/
def IsText (text : Text) (value : Value) : Prop :=
  ∃ before inner after, text = before ++ (inner ++ after) ∧ IsSpace before ∧
    IsValue inner value ∧ IsSpace after

/-! ## Decimal numbers -/

theorem toNat_digit {d : Nat} (h : d < 10) : (digit d).toNat = 0x30 + d :=
  toNat_ofNat_byte (by omega)

theorem isDigit_digit {d : Nat} (h : d < 10) : IsDigit (digit d) := by
  rw [IsDigit, toNat_digit h]
  omega

/-- Digits from the last to the first stand for the number they are the digits of. -/
theorem digitsValue_reverse_map {ds : List Nat} (h : ∀ d ∈ ds, d < 10) :
    digitsValue (ds.reverse.map digit) = Nat.ofDigits 10 ds := by
  rw [digitsValue, List.foldl_map, List.foldl_reverse, Nat.ofDigits_eq_foldr]
  induction ds with
  | nil => rfl
  | cons d ds ih =>
    obtain ⟨hd, hds⟩ := List.forall_mem_cons.mp h
    rw [List.foldr_cons, List.foldr_cons, ih hds, toNat_digit hd, Nat.add_sub_cancel_left,
      Nat.cast_id]
    omega

theorem isInt_decimalNat (n : Nat) : IsInt (decimalNat n) := by
  rw [decimalNat]
  split
  · exact .inl rfl
  · rename_i hn
    have hlt : ∀ d ∈ Nat.digits 10 n, d < 10 := fun d hd => Nat.digits_lt_base (by omega) hd
    have hne : Nat.digits 10 n ≠ [] := Nat.digits_ne_nil_iff_ne_zero.mpr hn
    obtain ⟨ds, d, hds⟩ := (List.eq_nil_or_concat (Nat.digits 10 n)).resolve_left hne
    rw [List.concat_eq_append] at hds
    have hlast : d ≠ 0 := by
      have hnonzero := Nat.getLast_digit_ne_zero 10 hn
      simpa [hds] using hnonzero
    have hd : d < 10 := hlt d (by rw [hds]; exact List.mem_append_right _ List.mem_cons_self)
    refine .inr ⟨digit d, ds.reverse.map digit, ?_, ?_, ?_⟩
    · rw [hds, List.reverse_append, List.map_append]
      rfl
    · intro heq
      have htoNat := congrArg UInt8.toNat heq
      rw [toNat_digit hd] at htoNat
      exact hlast (by change 0x30 + d = 0x30 at htoNat; omega)
    · intro b hb
      obtain ⟨e, he, rfl⟩ := List.mem_map.mp hb
      exact isDigit_digit (hlt e (List.mem_reverse.mp he))

theorem digitsValue_decimalNat (n : Nat) : digitsValue (decimalNat n) = n := by
  rw [decimalNat]
  split
  · rename_i hn
    rw [hn]
    rfl
  · rw [digitsValue_reverse_map fun d hd => Nat.digits_lt_base (by omega) hd,
      Nat.ofDigits_digits]

/-- An integer in decimal is a number that stands for it. -/
theorem isInteger_decimalInt (v : Int) : IsInteger (decimalInt v) v := by
  refine ⟨decimalNat v.natAbs, isInt_decimalNat _, ?_⟩
  rw [digitsValue_decimalNat, decimalInt]
  split
  · exact .inl ⟨rfl, by omega⟩
  · exact .inr ⟨rfl, by omega⟩

theorem isInteger_decimalNat (n : Nat) : IsInteger (decimalNat n) n :=
  ⟨decimalNat n, isInt_decimalNat n, .inl ⟨rfl, by rw [digitsValue_decimalNat]⟩⟩

theorem IsInteger.isNumber {token : Text} {v : Int} (h : IsInteger token v) : IsNumber token := by
  obtain ⟨digits, hint, ⟨rfl, -⟩ | ⟨rfl, -⟩⟩ := h
  · exact ⟨[], token, [], [], by simp, .inl rfl, hint, .inl rfl, .inl rfl⟩
  · exact ⟨[0x2D], digits, [], [], by simp, .inr rfl, hint, .inl rfl, .inl rfl⟩

/-! ## Fractions -/

/-- A dot, or a letter of an exponent. -/
def IsDotOrExp (b : UInt8) : Prop := b = 0x2E ∨ b = 0x65 ∨ b = 0x45

theorem IsInt.isDigit {digits : Text} (h : IsInt digits) : ∀ b ∈ digits, IsDigit b := by
  obtain rfl | ⟨d, ds, -, -, hall⟩ := h
  · intro b hb
    rw [List.mem_singleton.mp hb]
    exact ⟨by decide, by decide⟩
  · exact hall

/-- An integer has no dot and no exponent. -/
theorem IsInteger.not_dotOrExp {token : Text} {v : Int} (h : IsInteger token v) :
    ∀ b ∈ token, ¬IsDotOrExp b := by
  have hdigit : ∀ b, IsDigit b → ¬IsDotOrExp b := by
    rintro b hb (rfl | rfl | rfl)
    · exact absurd hb.1 (by decide)
    · exact absurd hb.2 (by decide)
    · exact absurd hb.2 (by decide)
  obtain ⟨digits, hint, ⟨rfl, -⟩ | ⟨rfl, -⟩⟩ := h
  · exact fun b hb => hdigit b (hint.isDigit b hb)
  · intro b hb
    rcases List.mem_cons.mp hb with rfl | hb
    · rintro (h | h | h) <;> exact absurd h (by decide)
    · exact hdigit b (hint.isDigit b hb)

/-- A number without a dot and without an exponent stays one with a fraction behind it. -/
theorem IsNumber.append_fraction {token : Text} (h : IsNumber token)
    (hplain : ∀ b ∈ token, ¬IsDotOrExp b) : IsNumber (token ++ [0x2E, 0x30]) := by
  obtain ⟨minus, int, frac, exp, rfl, hminus, hint, hfrac, hexp⟩ := h
  have hfrac : frac = [] := by
    obtain rfl | ⟨digits, rfl, -⟩ := hfrac
    · rfl
    · exact absurd (.inl rfl) (hplain 0x2E (by simp))
  have hexp : exp = [] := by
    obtain rfl | ⟨e, sign, digits, rfl, he, -⟩ := hexp
    · rfl
    · exact absurd (.inr he) (hplain e (by simp))
  subst hfrac
  subst hexp
  refine ⟨minus, int, [0x2E, 0x30], [], by simp, hminus, hint, .inr ⟨[0x30], rfl, ?_⟩, .inl rfl⟩
  refine ⟨List.cons_ne_nil _ _, fun b hb => ?_⟩
  rw [List.mem_singleton.mp hb]
  exact ⟨by decide, by decide⟩

/-! ## Hexadecimal numbers -/

/-- Four hexadecimal digits, in upper or lower case, stand for the number. -/
theorem isHexQuad_map_hexDigits {f : UInt8 → UInt8}
    (hf : ∀ k < 16, IsHexDigit (f (hexDigit k)) k) {n : Nat} (hn : n < 2 ^ 16) :
    IsHexQuad ((hexDigits 4 n).map f) n :=
  ⟨_, _, _, _, _, _, _, _, rfl, hf (n / 16 / 16 / 16 % 16) (by omega),
    hf (n / 16 / 16 % 16) (by omega), hf (n / 16 % 16) (by omega), hf (n % 16) (by omega),
    by omega⟩

/-! ## Spaces -/

theorem isSpace_nil : IsSpace [] := fun _ h => absurd h List.not_mem_nil

theorem isSpace_newline : IsSpace [0x0A] := fun b hb => by
  rw [List.mem_singleton.mp hb]
  exact .inr (.inr (.inl rfl))

theorem isSpace_replicate (n : Nat) : IsSpace (List.replicate n 0x20) := fun _ hb =>
  .inl (List.eq_of_mem_replicate hb)

theorem IsSpace.append {text rest : Text} (h : IsSpace text) (hrest : IsSpace rest) :
    IsSpace (text ++ rest) := fun b hb => (List.mem_append.mp hb).elim (h b) (hrest b)

theorem isMark_singleton (mark : UInt8) : IsMark mark [mark] :=
  ⟨[], [], rfl, isSpace_nil, isSpace_nil⟩

theorem IsMark.append {mark : UInt8} {text space : Text} (h : IsMark mark text)
    (hspace : IsSpace space) : IsMark mark (text ++ space) := by
  obtain ⟨before, after, rfl, hbefore, hafter⟩ := h
  exact ⟨before, after ++ space, List.append_assoc _ _ _, hbefore, hafter.append hspace⟩

theorem IsMark.prepend {mark : UInt8} {text space : Text} (h : IsMark mark text)
    (hspace : IsSpace space) : IsMark mark (space ++ text) := by
  obtain ⟨before, after, rfl, hbefore, hafter⟩ := h
  refine ⟨space ++ before, after, ?_, hspace.append hbefore, hafter⟩
  simp only [List.append_assoc]

end Lib.Json
