import Hrbl.ConvertJson

/-!
# Whole conversions

`bc_hrbl_convert_json_to_writer`: a text is parsed by json-c, its root is checked, and its
members are emitted. Whatever can fail before the first call on the writer leaves the writer
alone, and whatever fails after it is a call of the writer, which sets the error flag.
-/

namespace Hrbl

/-! ## The function -/

/-- What `json_tokener_parse_ex` leaves: the description of the error if there is one, the root
returned, and where the parse ended. -/
structure Parse where
  errorDesc : Option String
  root : JsonObject
  parseEnd : Nat
deriving Repr

/-- json-c, as far as a conversion calls it. -/
structure JsonTokener where
  created : Bool
  parse : Bytes → Parse

/-- The white space that may follow the root value. -/
def isTrailingSpace (c : UInt8) : Bool := c = 32 ∨ c = 9 ∨ c = 10 ∨ c = 13

/-- The position of the first byte behind the root value that is not white space. -/
def trailingContent (text : Bytes) (parseEnd : Nat) : Option Nat :=
  ((text.drop parseEnd).findIdx? fun c => !isTrailingSpace c).map (parseEnd + ·)

/-- `bc_hrbl_convert_json_to_writer` once its pointers are checked. -/
def convertText (env : Env) (tokener : JsonTokener) (w : Writer) (text : Bytes)
    (sink : Option ConvertError) : Emitted :=
  if text.length > 2 ^ 31 - 1 then
    some (false, w,
      convertErrorSet sink "input larger than json-c INT32_MAX limit" text.length)
  else if !tokener.created then some (false, w, convertErrorSet sink "json_tokener_new failed" 0)
  else
    let parse := tokener.parse text
    match parse.errorDesc with
    | some desc => some (false, w, convertErrorSet sink desc parse.parseEnd)
    | none =>
      match parse.root with
      -- a root that is `null` is a null pointer too
      | .null => some (false, w, convertErrorSet sink "empty JSON input" 0)
      | root =>
        match trailingContent text parse.parseEnd with
        | some offset =>
          some (false, w, convertErrorSet sink "trailing content after root value" offset)
        | none =>
          match root with
          | .object members => emitObjectBody env w sink members
          | _ => some (false, w, convertErrorSet sink "root value must be an object" 0)

/-- `bc_hrbl_convert_json_to_writer`. The three pointers may be null. -/
def convertJsonToWriter (env : Env) (tokener : JsonTokener) (writer : Option Writer)
    (jsonText : Option Bytes) (outError : Option ConvertError) :
    Option (Bool × Option Writer × Option ConvertError) :=
  let sink := outError.map fun _ => { message := none, byteOffset := 0, line := 0, column := 0 }
  match writer, jsonText with
  | some w, some text =>
    (convertText env tokener w text sink).map fun (ok, w, sink) => (ok, some w, sink)
  | _, _ => some (false, writer, sink)

/-! ## Failures of the emission -/

mutual

/-- No string of the value has a length that is negative as an `int`. -/
def JsonObject.Counted : JsonObject → Prop
  | .string data => 0 ≤ jsonObjectGetStringLen data
  | .array elements => CountedElements elements
  | .object members => CountedMembers members
  | .null | .boolean _ | .int _ | .double _ => True

def CountedElements : List JsonObject → Prop
  | [] => True
  | element :: elements => element.Counted ∧ CountedElements elements

def CountedMembers : List (Option Bytes × JsonObject) → Prop
  | [] => True
  | (_, value) :: members => value.Counted ∧ CountedMembers members

end

/-- If the conversion fails, the error flag is set from then on. -/
def FlagsFailure (result : Emitted) : Prop :=
  ∀ w sink, result = some (false, w, sink) → w.errorFlag = true

namespace FlagsFailure

theorem succeeded (w : Writer) (sink : Option ConvertError) :
    FlagsFailure (some (true, w, sink)) := by
  intro w' sink' h
  cases h

theorem failed {w : Writer} (hflag : w.errorFlag = true) (sink : Option ConvertError) :
    FlagsFailure (some (false, w, sink)) := by
  intro w' sink' h
  cases h
  exact hflag

theorem call {result : Option (Bool × Writer)} (h : FlagsRejection result)
    (sink : Option ConvertError) : FlagsFailure (emitCall sink result) := by
  intro w sink' hfalse
  obtain ⟨⟨success, w'⟩, hresult, heq⟩ := Option.map_eq_some_iff.mp hfalse
  cases heq
  exact h _ hresult

theorem bind {α : Type} {m : Option α} {f : α → Emitted}
    (hf : ∀ a, m = some a → FlagsFailure (f a)) : FlagsFailure (m >>= f) := by
  intro w sink h
  obtain ⟨a, ha, hfa⟩ := Option.bind_eq_some_iff.mp h
  exact hf a ha w sink hfa

end FlagsFailure

theorem emitContainer_flags {sink : Option ConvertError} {begun : Option (Bool × Writer)}
    {beginFailed endFailed : String} {body : Writer → Emitted}
    {finish : Writer → Option (Bool × Writer)} (hbegun : FlagsRejection begun)
    (hbody : ∀ w, FlagsFailure (body w)) (hfinish : ∀ w, FlagsRejection (finish w)) :
    FlagsFailure (emitContainer sink begun beginFailed body finish endFailed) := by
  unfold emitContainer
  refine FlagsFailure.bind ?_
  rintro ⟨begun, w⟩ hbegin
  cases begun with
  | false => exact FlagsFailure.failed (hbegun w hbegin) _
  | true =>
    refine FlagsFailure.bind ?_
    rintro ⟨emitted, w, sink⟩ hemit
    cases emitted with
    | false => exact FlagsFailure.failed (hbody _ w sink hemit) _
    | true =>
      refine FlagsFailure.bind ?_
      rintro ⟨ended, w⟩ hend
      cases ended with
      | false => exact FlagsFailure.failed (hfinish _ w hend) _
      | true => exact FlagsFailure.succeeded w sink

section

variable (env : Env) (w : Writer) (sink : Option ConvertError)

theorem emitNumberKeyed_flags (key : KeyArg) (value : Int) :
    FlagsFailure (emitNumberKeyed env w key sink (.int value)) := by
  unfold emitNumberKeyed
  dsimp only
  split
  · exact FlagsFailure.call (step_flags env w (.setUint64 key _)) sink
  · exact FlagsFailure.call (step_flags env w (.setInt64 key _)) sink

theorem emitNumberIndexed_flags (value : Int) :
    FlagsFailure (emitNumberIndexed env w sink (.int value)) := by
  unfold emitNumberIndexed
  dsimp only
  split
  · exact FlagsFailure.call (step_flags env w (.appendUint64 _)) sink
  · exact FlagsFailure.call (step_flags env w (.appendInt64 _)) sink

end

mutual

theorem emitValueKeyed_flags (env : Env) : ∀ {j : JsonObject}, j.Counted →
    ∀ (w : Writer) (key : KeyArg) (sink : Option ConvertError),
      FlagsFailure (emitValueKeyed env w key sink j)
  | .null, _, w, key, sink => FlagsFailure.call (step_flags env w (.setNull key)) sink
  | .boolean value, _, w, key, sink =>
    FlagsFailure.call (step_flags env w (.setBool key value)) sink
  | .int value, _, w, key, sink => emitNumberKeyed_flags env w sink key value
  | .double bits, _, w, key, sink =>
    FlagsFailure.call (step_flags env w (.setFloat64 key bits)) sink
  | .string data, h, w, key, sink => by
    unfold emitValueKeyed
    dsimp only
    rw [if_neg (Int.not_lt.mpr h)]
    exact FlagsFailure.call (step_flags env w (.setString key _)) sink
  | .array _, h, w, key, sink =>
    emitContainer_flags (step_flags env w (.beginArray key))
      (fun w => emitArrayBody_flags env h w sink) (fun w => step_flags env w .endArray)
  | .object _, h, w, key, sink =>
    emitContainer_flags (step_flags env w (.beginBlock key))
      (fun w => emitObjectBody_flags env h w sink) (fun w => step_flags env w .endBlock)

theorem emitValueIndexed_flags (env : Env) : ∀ {j : JsonObject}, j.Counted →
    ∀ (w : Writer) (sink : Option ConvertError), FlagsFailure (emitValueIndexed env w sink j)
  | .null, _, w, sink => FlagsFailure.call (step_flags env w .appendNull) sink
  | .boolean value, _, w, sink => FlagsFailure.call (step_flags env w (.appendBool value)) sink
  | .int value, _, w, sink => emitNumberIndexed_flags env w sink value
  | .double bits, _, w, sink => FlagsFailure.call (step_flags env w (.appendFloat64 bits)) sink
  | .string data, h, w, sink => by
    unfold emitValueIndexed
    dsimp only
    rw [if_neg (Int.not_lt.mpr h)]
    exact FlagsFailure.call (step_flags env w (.appendString _)) sink
  | .array _, h, w, sink =>
    emitContainer_flags (step_flags env w (.beginArray (.null 0)))
      (fun w => emitArrayBody_flags env h w sink) (fun w => step_flags env w .endArray)
  | .object _, h, w, sink =>
    emitContainer_flags (step_flags env w (.beginBlock (.null 0)))
      (fun w => emitObjectBody_flags env h w sink) (fun w => step_flags env w .endBlock)

theorem emitArrayBody_flags (env : Env) : ∀ {elements : List JsonObject},
    CountedElements elements → ∀ (w : Writer) (sink : Option ConvertError),
      FlagsFailure (emitArrayBody env w sink elements)
  | [], _, w, sink => FlagsFailure.succeeded w sink
  | element :: elements, ⟨h, hs⟩, w, sink => by
    unfold emitArrayBody
    refine FlagsFailure.bind ?_
    rintro ⟨emitted, w', sink'⟩ hemit
    cases emitted with
    | false => exact FlagsFailure.failed (emitValueIndexed_flags env h w sink w' sink' hemit) _
    | true => exact emitArrayBody_flags env hs w' sink'

theorem emitObjectBody_flags (env : Env) : ∀ {members : List (Option Bytes × JsonObject)},
    CountedMembers members → ∀ (w : Writer) (sink : Option ConvertError),
      FlagsFailure (emitObjectBody env w sink members)
  | [], _, w, sink => FlagsFailure.succeeded w sink
  | (name, value) :: members, ⟨h, hs⟩, w, sink => by
    unfold emitObjectBody
    refine FlagsFailure.bind ?_
    rintro ⟨emitted, w', sink'⟩ hemit
    cases emitted with
    | false =>
      exact FlagsFailure.failed (emitValueKeyed_flags env h w _ sink w' sink' hemit) _
    | true => exact emitObjectBody_flags env hs w' sink'

end

/-! ## Failures of the conversion -/

/-- json-c presents strings whose lengths are not negative, at every text. -/
def JsonTokener.Counted (tokener : JsonTokener) : Prop := ∀ text, (tokener.parse text).root.Counted

/-- What fails before the emission leaves the writer alone; the rest is the emission. -/
theorem convertText_cases (env : Env) (tokener : JsonTokener) (w : Writer) (text : Bytes)
    (sink : Option ConvertError) :
    (∃ sink', convertText env tokener w text sink = some (false, w, sink')) ∨
      ∃ members, (tokener.parse text).root = .object members ∧
        convertText env tokener w text sink = emitObjectBody env w sink members := by
  unfold convertText
  dsimp only
  split
  · exact .inl ⟨_, rfl⟩
  split
  · exact .inl ⟨_, rfl⟩
  split
  · exact .inl ⟨_, rfl⟩
  split
  · exact .inl ⟨_, rfl⟩
  split
  · exact .inl ⟨_, rfl⟩
  split
  · rename_i members hroot
    exact .inr ⟨members, hroot, rfl⟩
  · exact .inl ⟨_, rfl⟩

theorem convertText_failed {env : Env} {tokener : JsonTokener} {w w' : Writer} {text : Bytes}
    {sink sink' : Option ConvertError} (hcounted : tokener.Counted)
    (h : convertText env tokener w text sink = some (false, w', sink')) :
    w' = w ∨ w'.errorFlag = true := by
  rcases convertText_cases env tokener w text sink with ⟨sink₁, hfailed⟩ | ⟨members, hroot, hemit⟩
  · rw [hfailed] at h
    cases h
    exact .inl rfl
  · rw [hemit] at h
    have hmembers : (JsonObject.object members).Counted := hroot ▸ hcounted text
    exact .inr (emitObjectBody_flags env hmembers w sink w' sink' h)

/-- A conversion that returns `false` has not touched the writer, or has set its error flag:
then every later call returns, returns nothing and changes nothing but the last error. -/
theorem failed_conversion {env : Env} {tokener : JsonTokener} {writer writer' : Option Writer}
    {jsonText : Option Bytes} {outError outError' : Option ConvertError}
    (hcounted : tokener.Counted)
    (h : convertJsonToWriter env tokener writer jsonText outError =
      some (false, writer', outError')) :
    writer' = writer ∨ ∃ w, writer' = some w ∧ w.errorFlag = true ∧
      ∀ later : List (Env × Call), ∃ answers w', w.perform later = some (answers, w') ∧
        List.Forall₂ (fun c a => Stopped c.2 a) later answers := by
  unfold convertJsonToWriter at h
  dsimp only at h
  split at h
  · obtain ⟨⟨ok, w', sink⟩, hconvert, heq⟩ := Option.map_eq_some_iff.mp h
    cases heq
    rcases convertText_failed hcounted hconvert with rfl | hflag
    · exact .inl rfl
    · refine .inr ⟨w', rfl, hflag, ?_⟩
      intro later
      obtain ⟨answers, w₂, hrun, hstopped, -⟩ := perform_flagged hflag later
      exact ⟨answers, w₂, hrun, hstopped⟩
  · cases h
    exact .inl rfl

/-- The arena has no room left for the second element of `{"a":[1,true]}`. -/
theorem failed_conversion_out_of_memory :
    let env := { Env.succeeding fun _ => 0 with arenaAllocates := fun i => decide (i < 3) }
    let text : Bytes := [123, 34, 97, 34, 58, 91, 49, 44, 116, 114, 117, 101, 93, 125]
    let tokener : JsonTokener := {
      created := true
      parse := fun given =>
        if given = text then ⟨none, .object [(some [97], .array [.int 1, .boolean true])], 14⟩
        else ⟨some "unexpected character", .null, 0⟩ }
    let writer := some (Writer.create none)
    ∃ writer', convertJsonToWriter env tokener writer (some text) none =
        some (false, writer', none) ∧
      (writer' = writer ∨ ∃ w, writer' = some w ∧ w.errorFlag = true ∧
        ∀ later : List (Env × Call), ∃ answers w', w.perform later = some (answers, w') ∧
          List.Forall₂ (fun c a => Stopped c.2 a) later answers) := by
  intro env text tokener writer
  have hcounted : tokener.Counted := by
    intro given
    simp only [tokener]
    split <;> simp [JsonObject.Counted, CountedMembers, CountedElements]
  have hfalse : (convertJsonToWriter env tokener writer (some text) none).map
      (fun r => (r.1, r.2.2)) = some (false, none) := by decide +kernel
  obtain ⟨⟨ok, writer', error⟩, hfailed, heq⟩ := Option.map_eq_some_iff.mp hfalse
  cases heq
  exact ⟨writer', hfailed, failed_conversion hcounted hfailed⟩

end Hrbl
