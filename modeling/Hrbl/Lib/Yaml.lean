import Hrbl.Lib.Json

/-!
# YAML events

The events that a YAML document is passed around in, the nodes they are composed to, and the
data that nodes stand for by the core schema. Composing is a machine with a stack of the
collections that are open; `Composes` says of a list of events that it is one node wherever a
node may stand, and has a rule for each kind of node.
-/

namespace Lib.Yaml

/-- The bytes of a text. -/
abbrev Text := List UInt8

/-! ## Events -/

inductive ScalarStyle where
  | plain
  | doubleQuoted
deriving Repr, DecidableEq

inductive CollectionStyle where
  | block
  | flow
deriving Repr, DecidableEq

/-- A scalar without a tag; the two marks tell whether a reader may find its tag by itself. -/
structure Scalar where
  value : Text
  plainImplicit : Bool
  quotedImplicit : Bool
  style : ScalarStyle
deriving Repr, DecidableEq

inductive Event where
  | streamStart
  | streamEnd
  | documentStart (implicit : Bool)
  | documentEnd (implicit : Bool)
  | scalar (scalar : Scalar)
  | mappingStart (implicit : Bool) (style : CollectionStyle)
  | mappingEnd
  | sequenceStart (implicit : Bool) (style : CollectionStyle)
  | sequenceEnd
deriving Repr, DecidableEq

/-! ## Nodes -/

inductive Node where
  | scalar (scalar : Scalar)
  | mapping (pairs : List (Node × Node))
  | sequence (elements : List Node)

/-- A collection that is open: what is in it, and the key that waits for its value. -/
inductive Frame where
  | mapping (pairs : List (Node × Node)) (key : Option Node)
  | sequence (elements : List Node)

inductive State where
  | start
  | stream
  | inside (frames : List Frame)
  | composed (node : Node)
  | closed (node : Node)
  | done (node : Node)

/-- A node is complete where these collections are open. -/
def place (node : Node) : List Frame → State
  | [] => .composed node
  | .mapping pairs none :: frames => .inside (.mapping pairs (some node) :: frames)
  | .mapping pairs (some key) :: frames => .inside (.mapping (pairs ++ [(key, node)]) none :: frames)
  | .sequence elements :: frames => .inside (.sequence (elements ++ [node]) :: frames)

/-- One event of a stream with one document. -/
def step : State → Event → Option State
  | .start, .streamStart => some .stream
  | .stream, .documentStart _ => some (.inside [])
  | .inside frames, .scalar scalar => some (place (.scalar scalar) frames)
  | .inside frames, .mappingStart _ _ => some (.inside (.mapping [] none :: frames))
  | .inside frames, .sequenceStart _ _ => some (.inside (.sequence [] :: frames))
  | .inside (.mapping pairs none :: frames), .mappingEnd => some (place (.mapping pairs) frames)
  | .inside (.sequence elements :: frames), .sequenceEnd =>
    some (place (.sequence elements) frames)
  | .composed node, .documentEnd _ => some (.closed node)
  | .closed node, .streamEnd => some (.done node)
  | _, _ => none

/-- The node of a stream that is balanced. -/
def compose (events : List Event) : Option Node :=
  match events.foldlM step .start with
  | some (.done node) => some node
  | _ => none

/-- The events are this node, whatever is open. -/
def Composes (events : List Event) (node : Node) : Prop :=
  ∀ frames, events.foldlM step (.inside frames) = some (place node frames)

/-- The events are these pairs, in every mapping that waits for a key. -/
def ComposesPairs (events : List Event) (pairs : List (Node × Node)) : Prop :=
  ∀ before frames, events.foldlM step (.inside (.mapping before none :: frames)) =
    some (.inside (.mapping (before ++ pairs) none :: frames))

/-- The events are these elements, in every sequence. -/
def ComposesElements (events : List Event) (elements : List Node) : Prop :=
  ∀ before frames, events.foldlM step (.inside (.sequence before :: frames)) =
    some (.inside (.sequence (before ++ elements) :: frames))

theorem composes_scalar (scalar : Scalar) : Composes [.scalar scalar] (.scalar scalar) := by
  intro frames
  rfl

/-- A fold over two lists that comes through the first. -/
theorem foldlM_step_append {events rest : List Event} {state state' : State}
    (h : events.foldlM step state = some state') :
    (events ++ rest).foldlM step state = rest.foldlM step state' := by
  rw [List.foldlM_append, h]
  rfl

theorem composesPairs_nil : ComposesPairs [] [] := by
  intro before frames
  rw [List.append_nil]
  rfl

/-- A key, its value, and more pairs. -/
theorem ComposesPairs.cons {keyEvents valueEvents rest : List Event} {key value : Node}
    {pairs : List (Node × Node)} (hkey : Composes keyEvents key)
    (hvalue : Composes valueEvents value) (hrest : ComposesPairs rest pairs) :
    ComposesPairs (keyEvents ++ (valueEvents ++ rest)) ((key, value) :: pairs) := by
  intro before frames
  rw [foldlM_step_append (hkey _), place, foldlM_step_append (hvalue _), place, hrest,
    List.append_assoc]
  rfl

theorem composesElements_nil : ComposesElements [] [] := by
  intro before frames
  rw [List.append_nil]
  rfl

theorem ComposesElements.cons {events rest : List Event} {element : Node} {elements : List Node}
    (helement : Composes events element) (hrest : ComposesElements rest elements) :
    ComposesElements (events ++ rest) (element :: elements) := by
  intro before frames
  rw [foldlM_step_append (helement _), place, hrest, List.append_assoc]
  rfl

theorem ComposesPairs.mapping {events : List Event} {pairs : List (Node × Node)}
    (h : ComposesPairs events pairs) (implicit : Bool) (style : CollectionStyle) :
    Composes (.mappingStart implicit style :: (events ++ [.mappingEnd])) (.mapping pairs) := by
  intro frames
  have hstart : (.mappingStart implicit style :: (events ++ [.mappingEnd])).foldlM step
      (.inside frames) = (events ++ [Event.mappingEnd]).foldlM step
        (.inside (.mapping [] none :: frames)) := rfl
  rw [hstart, foldlM_step_append (h [] frames)]
  rfl

theorem ComposesElements.sequence {events : List Event} {elements : List Node}
    (h : ComposesElements events elements) (implicit : Bool) (style : CollectionStyle) :
    Composes (.sequenceStart implicit style :: (events ++ [.sequenceEnd]))
      (.sequence elements) := by
  intro frames
  have hstart : (.sequenceStart implicit style :: (events ++ [.sequenceEnd])).foldlM step
      (.inside frames) = (events ++ [Event.sequenceEnd]).foldlM step
        (.inside (.sequence [] :: frames)) := rfl
  rw [hstart, foldlM_step_append (h [] frames)]
  rfl

/-- A stream around one node is balanced, and composed to it. -/
theorem Composes.compose {events : List Event} {node : Node} (h : Composes events node)
    (started ended : Bool) :
    compose (.streamStart :: .documentStart started ::
      (events ++ [.documentEnd ended, .streamEnd])) = some node := by
  have hfold : (.streamStart :: .documentStart started ::
      (events ++ [.documentEnd ended, .streamEnd])).foldlM step .start =
        (events ++ [Event.documentEnd ended, Event.streamEnd]).foldlM step (.inside []) := rfl
  rw [Yaml.compose, hfold, foldlM_step_append (h [])]
  rfl

/-! ## The core schema -/

/-- What nodes stand for, with floating-point numbers of some kind. -/
inductive Data (F : Type) where
  | null
  | bool (value : Bool)
  | int (value : Int)
  | float (value : F)
  | infinity (negative : Bool)
  | nan
  | string (value : Text)
  | mapping (pairs : List (Data F × Data F))
  | sequence (elements : List (Data F))

/-- ASCII characters. -/
def chars (cs : List Char) : Text := cs.map Char.toUInt8

/-- A sign, and what is behind it. -/
def unsign : Text → Bool × Text
  | 0x2D :: rest => (true, rest)
  | 0x2B :: rest => (false, rest)
  | rest => (false, rest)

def isDigit (b : UInt8) : Bool := 0x30 ≤ b && b ≤ 0x39

/-- `[0-9]+`. -/
def areDigits (text : Text) : Bool := text ≠ [] && text.all isDigit

/-- The value of a digit with a base up to 16, or more than every base. -/
def digitOf (b : UInt8) : Nat :=
  if isDigit b then b.toNat - 0x30
  else if 0x61 ≤ b ∧ b ≤ 0x66 then b.toNat - 0x57
  else if 0x41 ≤ b ∧ b ≤ 0x46 then b.toNat - 0x37
  else 16

/-- Digits behind `0o` or `0x`. -/
def basedInt (letter : UInt8) (base : Nat) : Text → Option Nat
  | 0x30 :: l :: digits =>
    if l = letter ∧ digits ≠ [] ∧ ∀ b ∈ digits, digitOf b < base then
      some (digits.foldl (fun n b => n * base + digitOf b) 0)
    else none
  | _ => none

/-- `( [eE] [-+]? [0-9]+ )?`. -/
def isExponent : Text → Bool
  | [] => true
  | e :: rest => (e = 0x65 || e = 0x45) && areDigits (unsign rest).2

/-- `( \. [0-9]+ | [0-9]+ ( \. [0-9]* )? ) ( [eE] [-+]? [0-9]+ )?`, with digits taken off its
front. -/
def isFloatTail (hasDigits : Bool) : Text → Bool
  | 0x2E :: rest => (hasDigits || rest.takeWhile isDigit ≠ []) && isExponent (rest.dropWhile isDigit)
  | rest => hasDigits && isExponent rest

def isFloat (text : Text) : Bool :=
  isFloatTail (text.takeWhile isDigit ≠ []) (text.dropWhile isDigit)

/-- A word and its three spellings. -/
def isWord (text : Text) (small capital big : List Char) : Bool :=
  text = chars small || text = chars capital || text = chars big

section

variable {F : Type} (read : Text → F)

/-- What a plain scalar stands for; the floating-point numbers are read by others. -/
def resolve (text : Text) : Data F :=
  if text = [] || text = chars ['~'] ||
      isWord text ['n', 'u', 'l', 'l'] ['N', 'u', 'l', 'l'] ['N', 'U', 'L', 'L'] then .null
  else if isWord text ['t', 'r', 'u', 'e'] ['T', 'r', 'u', 'e'] ['T', 'R', 'U', 'E'] then .bool true
  else if isWord text ['f', 'a', 'l', 's', 'e'] ['F', 'a', 'l', 's', 'e']
      ['F', 'A', 'L', 'S', 'E'] then .bool false
  else if areDigits (unsign text).2 then
    .int (if (unsign text).1 then -Json.digitsValue (unsign text).2
      else Json.digitsValue (unsign text).2)
  else
    match basedInt 0x6F 8 text, basedInt 0x78 16 text with
    | some value, _ => .int value
    | none, some value => .int value
    | none, none =>
      if isFloat (unsign text).2 then .float (read text)
      else if isWord (unsign text).2 ['.', 'i', 'n', 'f'] ['.', 'I', 'n', 'f']
          ['.', 'I', 'N', 'F'] then .infinity (unsign text).1
      else if isWord text ['.', 'n', 'a', 'n'] ['.', 'N', 'a', 'N'] ['.', 'N', 'A', 'N'] then .nan
      else .string text

/-- A scalar that is not plain is a string. -/
def Scalar.data (scalar : Scalar) : Data F :=
  match scalar.style with
  | .plain => resolve read scalar.value
  | .doubleQuoted => .string scalar.value

mutual

def Node.data : Node → Data F
  | .scalar scalar => scalar.data read
  | .mapping pairs => .mapping (pairsData pairs)
  | .sequence elements => .sequence (elementsData elements)

def pairsData : List (Node × Node) → List (Data F × Data F)
  | [] => []
  | (key, value) :: pairs => (key.data, value.data) :: pairsData pairs

def elementsData : List Node → List (Data F)
  | [] => []
  | element :: elements => element.data :: elementsData elements

end

end

/-! ## Numbers -/

/-- The bytes of decimal numbers. -/
def isNumeric (b : UInt8) : Bool :=
  isDigit b || b = 0x2D || b = 0x2B || b = 0x2E || b = 0x65 || b = 0x45

theorem isDigit_iff {b : UInt8} : isDigit b = true ↔ Json.IsDigit b := by
  rw [isDigit, Json.IsDigit, Bool.and_eq_true, decide_eq_true_iff, decide_eq_true_iff,
    UInt8.le_iff_toNat_le, UInt8.le_iff_toNat_le]
  rfl

theorem isNumeric_of_isDigit {b : UInt8} (h : Json.IsDigit b) : isNumeric b = true := by
  rw [isNumeric, isDigit_iff.mpr h]
  rfl

theorem areDigits_of {digits : Text} (h : Json.AreDigits digits) : areDigits digits = true := by
  obtain ⟨hne, hall⟩ := h
  rw [areDigits, Bool.and_eq_true, decide_eq_true_iff, List.all_eq_true]
  exact ⟨hne, fun b hb => isDigit_iff.mpr (hall b hb)⟩

/-- An integer part has digits only. -/
theorem areDigits_of_isInt {digits : Text} (h : Json.IsInt digits) : Json.AreDigits digits := by
  refine ⟨?_, h.isDigit⟩
  rcases h with rfl | ⟨d, ds, rfl, -⟩
  · exact List.cons_ne_nil _ _
  · exact List.cons_ne_nil _ _

theorem isFrac_numeric {frac : Text} (h : Json.IsFrac frac) : ∀ b ∈ frac, isNumeric b = true := by
  intro b hb
  rcases h with rfl | ⟨digits, rfl, -, hdigits⟩
  · cases hb
  · rcases List.mem_cons.mp hb with rfl | hb
    · decide
    · exact isNumeric_of_isDigit (hdigits b hb)

theorem isExp_numeric {exp : Text} (h : Json.IsExp exp) : ∀ b ∈ exp, isNumeric b = true := by
  intro b hb
  rcases h with rfl | ⟨e, sign, digits, rfl, he, hsign, -, hdigits⟩
  · cases hb
  rcases List.mem_cons.mp hb with rfl | hb
  · rcases he with rfl | rfl
    · decide
    · decide
  rcases List.mem_append.mp hb with hb | hb
  · rcases hsign with rfl | rfl | rfl
    · cases hb
    · rw [List.mem_singleton.mp hb]
      decide
    · rw [List.mem_singleton.mp hb]
      decide
  · exact isNumeric_of_isDigit (hdigits b hb)

theorem isNumber_numeric {token : Text} (h : Json.IsNumber token) :
    ∀ b ∈ token, isNumeric b = true := by
  obtain ⟨minus, int, frac, exp, rfl, hminus, hint, hfrac, hexp⟩ := h
  intro b hb
  simp only [List.mem_append] at hb
  rcases hb with ((hb | hb) | hb) | hb
  · rcases hminus with rfl | rfl
    · cases hb
    · rw [List.mem_singleton.mp hb]
      decide
  · exact isNumeric_of_isDigit (hint.isDigit b hb)
  · exact isFrac_numeric hfrac b hb
  · exact isExp_numeric hexp b hb

/-- A word with another byte is no number. -/
theorem ne_chars {text : Text} {word : List Char} (h : ∀ b ∈ text, isNumeric b = true)
    (hword : (chars word).all isNumeric = false) : text ≠ chars word := by
  rintro rfl
  rw [List.all_eq_true.mpr h] at hword
  cases hword

theorem isWord_eq_false {text : Text} {small capital big : List Char}
    (h : ∀ b ∈ text, isNumeric b = true) (hsmall : (chars small).all isNumeric = false)
    (hcapital : (chars capital).all isNumeric = false)
    (hbig : (chars big).all isNumeric = false) : isWord text small capital big = false := by
  rw [isWord, decide_eq_false (ne_chars h hsmall), decide_eq_false (ne_chars h hcapital),
    decide_eq_false (ne_chars h hbig)]
  rfl

theorem basedInt_eq_none {letter : UInt8} {base : Nat} {text : Text}
    (h : ∀ b ∈ text, isNumeric b = true) (hletter : isNumeric letter = false) :
    basedInt letter base text = none := by
  unfold basedInt
  split
  · rename_i l digits
    rw [if_neg]
    rintro ⟨rfl, -⟩
    rw [h l (List.mem_cons_of_mem _ List.mem_cons_self)] at hletter
    cases hletter
  · rfl

/-- What does not start with a sign has none. -/
theorem unsign_of_digit {b : UInt8} (hb : Json.IsDigit b) (rest : Text) :
    unsign (b :: rest) = (false, b :: rest) := by
  have hminus : b ≠ 0x2D := by
    rintro rfl
    exact absurd hb.1 (by decide)
  have hplus : b ≠ 0x2B := by
    rintro rfl
    exact absurd hb.1 (by decide)
  unfold unsign
  split
  · rename_i heq
    exact absurd (List.cons.inj heq).1 hminus
  · rename_i heq
    exact absurd (List.cons.inj heq).1 hplus
  · rfl

theorem unsign_append {sign digits : Text}
    (hsign : sign = [] ∨ sign = [0x2B] ∨ sign = [0x2D]) (hdigits : Json.AreDigits digits)
    (rest : Text) :
    unsign (sign ++ (digits ++ rest)) = (decide (sign = [0x2D]), digits ++ rest) := by
  obtain ⟨hne, hall⟩ := hdigits
  obtain ⟨b, bs, rfl⟩ := List.exists_cons_of_ne_nil hne
  rcases hsign with rfl | rfl | rfl
  · exact unsign_of_digit (hall b List.mem_cons_self) _
  · rfl
  · rfl

theorem takeWhile_digits {digits rest : Text} (h : ∀ b ∈ digits, Json.IsDigit b)
    (hrest : ∀ b ∈ rest.head?, ¬Json.IsDigit b) :
    (digits ++ rest).takeWhile isDigit = digits ∧ (digits ++ rest).dropWhile isDigit = rest := by
  have hall : ∀ b ∈ digits, isDigit b = true := fun b hb => isDigit_iff.mpr (h b hb)
  have hstop : rest.takeWhile isDigit = [] ∧ rest.dropWhile isDigit = rest := by
    cases rest with
    | nil => exact ⟨rfl, rfl⟩
    | cons b bs =>
      have hb : ¬isDigit b = true := fun heq => hrest b rfl (isDigit_iff.mp heq)
      exact ⟨List.takeWhile_cons_of_neg hb, List.dropWhile_cons_of_neg hb⟩
  rw [List.takeWhile_append_of_pos hall, List.dropWhile_append_of_pos hall, hstop.1, hstop.2,
    List.append_nil]
  exact ⟨rfl, rfl⟩

theorem isExponent_of {exp : Text} (h : Json.IsExp exp) : isExponent exp = true := by
  rcases h with rfl | ⟨e, sign, digits, rfl, he, hsign, hdigits⟩
  · rfl
  · have hunsign := unsign_append hsign hdigits []
    rw [List.append_nil] at hunsign
    rw [isExponent, hunsign, areDigits_of hdigits, Bool.and_true]
    rcases he with rfl | rfl
    · decide
    · decide

theorem isExp_head {exp : Text} (h : Json.IsExp exp) : ∀ b ∈ exp.head?, ¬Json.IsDigit b := by
  intro b hb
  rcases h with rfl | ⟨e, sign, digits, rfl, he, -⟩
  · cases hb
  · obtain rfl : e = b := Option.some.inj hb
    rcases he with rfl | rfl
    · exact fun hdigit => absurd hdigit.2 (by decide)
    · exact fun hdigit => absurd hdigit.2 (by decide)

/-- Digits with a fraction or an exponent behind them are a float. -/
theorem isFloat_of {int frac exp : Text} (hint : Json.IsInt int) (hfrac : Json.IsFrac frac)
    (hexp : Json.IsExp exp) : isFloat (int ++ (frac ++ exp)) = true := by
  have hne : (decide (int ≠ [])) = true := decide_eq_true (areDigits_of_isInt hint).1
  have hhead : ∀ b ∈ (frac ++ exp).head?, ¬Json.IsDigit b := by
    rcases hfrac with rfl | ⟨digits, rfl, -⟩
    · exact isExp_head hexp
    · intro b hb
      obtain rfl : 0x2E = b := Option.some.inj hb
      exact fun hdigit => absurd hdigit.1 (by decide)
  obtain ⟨htake, hdrop⟩ := takeWhile_digits hint.isDigit hhead
  rw [isFloat, htake, hdrop, hne]
  rcases hfrac with rfl | ⟨digits, rfl, -, hdigits⟩
  · rw [List.nil_append]
    unfold isFloatTail
    split
    · -- an exponent does not start with a dot
      rename_i heq
      rcases hexp with hempty | ⟨e, sign, more, hmore, he, -⟩
      · cases hempty
      · rcases he with rfl | rfl
        · cases hmore
        · cases hmore
    · rw [isExponent_of hexp]
      rfl
  · have htail := (takeWhile_digits hdigits (isExp_head hexp)).2
    rw [List.cons_append, isFloatTail, htail, isExponent_of hexp]
    rfl

section

variable {F : Type} (read : Text → F)

/-- A number is none of the words that stand for something else. -/
theorem resolve_numeric {text : Text} (hne : text ≠ []) (h : ∀ b ∈ text, isNumeric b = true) :
    resolve read text =
      if areDigits (unsign text).2 then
        .int (if (unsign text).1 then -Json.digitsValue (unsign text).2
          else Json.digitsValue (unsign text).2)
      else if isFloat (unsign text).2 then .float (read text)
      else .string text := by
  have hbody : ∀ b ∈ (unsign text).2, isNumeric b = true := by
    intro b hb
    unfold unsign at hb
    split at hb
    · exact h b (List.mem_cons_of_mem _ hb)
    · exact h b (List.mem_cons_of_mem _ hb)
    · exact h b hb
  rw [resolve, decide_eq_false hne, decide_eq_false (ne_chars h (by decide)),
    isWord_eq_false h (by decide) (by decide) (by decide),
    isWord_eq_false h (by decide) (by decide) (by decide),
    isWord_eq_false h (by decide) (by decide) (by decide),
    isWord_eq_false hbody (by decide) (by decide) (by decide),
    isWord_eq_false h (by decide) (by decide) (by decide),
    basedInt_eq_none h (by decide), basedInt_eq_none h (by decide)]
  rfl

/-- An integer in decimal is read as the integer. -/
theorem resolve_integer {token : Text} {v : Int} (h : Json.IsInteger token v) :
    resolve read token = .int v := by
  have hnumeric := isNumber_numeric h.isNumber
  obtain ⟨digits, hint, hcases⟩ := h
  have hdigits := areDigits_of_isInt hint
  have hunsign : ∀ sign, (sign = [] ∨ sign = [0x2B] ∨ sign = [0x2D]) →
      unsign (sign ++ digits) = (decide (sign = [0x2D]), digits) := by
    intro sign hsign
    have happend := unsign_append hsign hdigits []
    rwa [List.append_nil] at happend
  rcases hcases with ⟨rfl, rfl⟩ | ⟨rfl, rfl⟩
  · have hplain : unsign token = (false, token) := hunsign [] (.inl rfl)
    rw [resolve_numeric read hdigits.1 hnumeric, hplain, if_pos (areDigits_of hdigits)]
    rfl
  · have hminus : unsign (0x2D :: digits) = (true, digits) := hunsign [0x2D] (.inr (.inr rfl))
    rw [resolve_numeric read (List.cons_ne_nil _ _) hnumeric, hminus,
      if_pos (areDigits_of hdigits)]
    rfl

/-- A number with a dot or an exponent is read as a float. -/
theorem resolve_float {token : Text} (h : Json.IsNumber token)
    (hdot : ∃ b ∈ token, Json.IsDotOrExp b) : resolve read token = .float (read token) := by
  have hnumeric := isNumber_numeric h
  obtain ⟨minus, int, frac, exp, rfl, hminus, hint, hfrac, hexp⟩ := h
  have hdigits := areDigits_of_isInt hint
  have hsign : minus = [] ∨ minus = [0x2B] ∨ minus = [0x2D] := by
    rcases hminus with h | h
    · exact .inl h
    · exact .inr (.inr h)
  have hunsign : unsign (minus ++ int ++ frac ++ exp) =
      (decide (minus = [0x2D]), int ++ (frac ++ exp)) := by
    rw [List.append_assoc, List.append_assoc]
    exact unsign_append hsign hdigits _
  have hne : minus ++ int ++ frac ++ exp ≠ [] := by
    intro heq
    simp only [List.append_eq_nil_iff] at heq
    exact hdigits.1 heq.1.1.2
  have hnot : ¬areDigits (int ++ (frac ++ exp)) = true := by
    intro hall
    rw [areDigits, Bool.and_eq_true, List.all_eq_true] at hall
    obtain ⟨b, hb, hbdot⟩ := hdot
    have hbody : b ∈ int ++ (frac ++ exp) := by
      simp only [List.mem_append] at hb ⊢
      rcases hb with ((hb | hb) | hb) | hb
      · -- the minus is neither a dot nor an exponent
        rcases hminus with rfl | rfl
        · cases hb
        · rw [List.mem_singleton.mp hb] at hbdot
          rcases hbdot with h | h | h <;> exact absurd h (by decide)
      · exact .inl hb
      · exact .inr (.inl hb)
      · exact .inr (.inr hb)
    have hdigit := isDigit_iff.mp (hall.2 b hbody)
    rcases hbdot with rfl | rfl | rfl
    · exact absurd hdigit.1 (by decide)
    · exact absurd hdigit.2 (by decide)
    · exact absurd hdigit.2 (by decide)
  rw [resolve_numeric read hne hnumeric, hunsign, if_neg hnot,
    if_pos (isFloat_of hint hfrac hexp)]

end

/-- A number without a dot and an exponent is an integer. -/
theorem exists_isInteger {token : Text} (h : Json.IsNumber token)
    (hplain : ∀ b ∈ token, ¬Json.IsDotOrExp b) : ∃ v, Json.IsInteger token v := by
  obtain ⟨minus, int, frac, exp, rfl, hminus, hint, hfrac, hexp⟩ := h
  have hfrac : frac = [] := by
    rcases hfrac with rfl | ⟨digits, rfl, -⟩
    · rfl
    · exact absurd (.inl rfl) (hplain 0x2E (by simp))
  have hexp : exp = [] := by
    rcases hexp with rfl | ⟨e, sign, digits, rfl, he, -⟩
    · rfl
    · exact absurd (.inr he) (hplain e (by simp))
  subst hfrac
  subst hexp
  rw [List.append_nil, List.append_nil]
  rcases hminus with rfl | rfl
  · exact ⟨_, int, hint, .inl ⟨rfl, rfl⟩⟩
  · exact ⟨_, int, hint, .inr ⟨rfl, rfl⟩⟩

end Lib.Yaml
