import Hrbl.Replay
import Hrbl.Growth

/-!
# From JSON to a writer

`bc_hrbl_convert_json.c`: the calls on a writer that build what json-c has parsed. The
conversion is two recursions side by side, one for what goes under a key and one for the
elements of an array. Every value is a run of construction calls that leaves the writer in the
scope it was in, so what holds of runs of calls holds of the conversion.
-/

namespace Hrbl

open Lib NodeTree

/-! ## What json-c presents -/

/-- A `struct json_object`, by its `json_object_get_type`. Null is a null pointer. A member is
the pointer that `json_object_iter_peek_name` returns, with the bytes behind it, and a value. -/
inductive JsonObject where
  | null
  | boolean (value : Bool)
  | int (value : Int)
  | double (bits : UInt64)
  | string (data : Bytes)
  | array (elements : List JsonObject)
  | object (members : List (Option Bytes × JsonObject))
deriving Repr

/-- `json_object_get_int64` of an integer: the nearest `int64_t`. -/
def jsonObjectGetInt64 (value : Int) : Int64 :=
  .ofInt (max Int64.minValue.toInt (min value Int64.maxValue.toInt))

/-- `json_object_get_uint64` of an integer: the nearest `uint64_t`. -/
def jsonObjectGetUint64 (value : Int) : UInt64 :=
  .ofNat (min value.toNat (2 ^ 64 - 1))

/-- `json_object_get_string_len`: the length as an `int`. -/
def jsonObjectGetStringLen (data : Bytes) : Int := (Int32.ofNat data.length).toInt

/-- The bytes of a C string. -/
def cString (memory : Bytes) : Bytes := memory.takeWhile (· ≠ 0)

/-! ## Errors -/

/-- `bc_hrbl_convert_error_t`. -/
structure ConvertError where
  message : Option String
  byteOffset : Nat
  line : Nat
  column : Nat
deriving Repr, DecidableEq

/-- `bc_hrbl_convert_error_set`; there may be no sink. -/
def convertErrorSet (sink : Option ConvertError) (message : String) (byteOffset : Nat) :
    Option ConvertError :=
  sink.map fun _ => { message := some message, byteOffset, line := 0, column := 0 }

/-- What a step of the conversion leaves: the value returned, the writer and the sink. -/
abbrev Emitted := Option (Bool × Writer × Option ConvertError)

/-- `return` of a call on the writer. -/
def emitCall (sink : Option ConvertError) (result : Option (Bool × Writer)) : Emitted :=
  result.map fun (success, w) => (success, w, sink)

/-! ## Emission -/

/-- `bc_hrbl_convert_emit_number_keyed`. -/
def emitNumberKeyed (env : Env) (w : Writer) (key : KeyArg) (sink : Option ConvertError) :
    JsonObject → Emitted
  | .int value =>
    let signedValue := jsonObjectGetInt64 value
    let unsignedValue := jsonObjectGetUint64 value
    if signedValue = Int64.maxValue ∧ unsignedValue > 0x7FFFFFFFFFFFFFFF then
      emitCall sink (setUint64 env w key unsignedValue)
    else emitCall sink (setInt64 env w key signedValue)
  | .double bits => emitCall sink (setFloat64 env w key bits)
  | _ => some (false, w, convertErrorSet sink "unsupported numeric type" 0)

/-- `bc_hrbl_convert_emit_number_indexed`. -/
def emitNumberIndexed (env : Env) (w : Writer) (sink : Option ConvertError) :
    JsonObject → Emitted
  | .int value =>
    let signedValue := jsonObjectGetInt64 value
    let unsignedValue := jsonObjectGetUint64 value
    if signedValue = Int64.maxValue ∧ unsignedValue > 0x7FFFFFFFFFFFFFFF then
      emitCall sink (appendUint64 env w unsignedValue)
    else emitCall sink (appendInt64 env w signedValue)
  | .double bits => emitCall sink (appendFloat64 env w bits)
  | _ => some (false, w, convertErrorSet sink "unsupported numeric type" 0)

/-- The shape of the two containers: begun, filled and ended. -/
def emitContainer (sink : Option ConvertError) (begun : Option (Bool × Writer))
    (beginFailed : String) (body : Writer → Emitted) (finish : Writer → Option (Bool × Writer))
    (endFailed : String) : Emitted := do
  let (begun, w) ← begun
  if !begun then return (false, w, convertErrorSet sink beginFailed 0)
  else do
    let (emitted, w, sink) ← body w
    if !emitted then return (false, w, sink)
    else do
      let (ended, w) ← finish w
      if !ended then return (false, w, convertErrorSet sink endFailed 0)
      else return (true, w, sink)

/-- The key arguments of a member, `strlen` of the name included. -/
def nameArg : Option Bytes → KeyArg
  | none => .null 0
  | some memory => .data (cString memory)

mutual

/-- `bc_hrbl_convert_emit_object_body`. -/
def emitObjectBody (env : Env) (w : Writer) (sink : Option ConvertError) :
    List (Option Bytes × JsonObject) → Emitted
  | [] => some (true, w, sink)
  | (name, value) :: members => do
    let (emitted, w, sink) ← emitValueKeyed env w (nameArg name) sink value
    if !emitted then return (false, w, sink)
    else emitObjectBody env w sink members

/-- `bc_hrbl_convert_emit_array_body`. -/
def emitArrayBody (env : Env) (w : Writer) (sink : Option ConvertError) :
    List JsonObject → Emitted
  | [] => some (true, w, sink)
  | element :: elements => do
    let (emitted, w, sink) ← emitValueIndexed env w sink element
    if !emitted then return (false, w, sink)
    else emitArrayBody env w sink elements

/-- `bc_hrbl_convert_emit_value_keyed`. Every type of json-c has its case, so that the end of
the function is not reached. -/
def emitValueKeyed (env : Env) (w : Writer) (key : KeyArg) (sink : Option ConvertError) :
    JsonObject → Emitted
  | .null => emitCall sink (setNull env w key)
  | .boolean value => emitCall sink (setBool env w key value)
  | .int value => emitNumberKeyed env w key sink (.int value)
  | .double bits => emitNumberKeyed env w key sink (.double bits)
  | .string data =>
    let length := jsonObjectGetStringLen data
    if length < 0 then some (false, w, convertErrorSet sink "invalid string length" 0)
    else emitCall sink (setString env w key (data.take length.toNat))
  | .array elements =>
    emitContainer sink (beginArray env w key) "writer begin_array failed"
      (fun w => emitArrayBody env w sink elements) endArray "writer end_array failed"
  | .object members =>
    emitContainer sink (beginBlock env w key) "writer begin_block failed"
      (fun w => emitObjectBody env w sink members) endBlock "writer end_block failed"

/-- `bc_hrbl_convert_emit_value_indexed`. -/
def emitValueIndexed (env : Env) (w : Writer) (sink : Option ConvertError) :
    JsonObject → Emitted
  | .null => emitCall sink (appendNull env w)
  | .boolean value => emitCall sink (appendBool env w value)
  | .int value => emitNumberIndexed env w sink (.int value)
  | .double bits => emitNumberIndexed env w sink (.double bits)
  | .string data =>
    let length := jsonObjectGetStringLen data
    if length < 0 then some (false, w, convertErrorSet sink "invalid string length" 0)
    else emitCall sink (appendString env w (data.take length.toNat))
  | .array elements =>
    emitContainer sink (beginArray env w (.null 0)) "writer begin_array failed"
      (fun w => emitArrayBody env w sink elements) endArray "writer end_array failed"
  | .object members =>
    emitContainer sink (beginBlock env w (.null 0)) "writer begin_block failed"
      (fun w => emitObjectBody env w sink members) endBlock "writer end_block failed"

end

/-! ## What the conversion is for -/

mutual

/-- What json-c can present: integers of 64 bits with or without a sign, and strings counted by
an `int`. A name comes out of a text of at most `INT32_MAX` bytes, here of any that 32 bits
count. -/
def JsonObject.Presented : JsonObject → Prop
  | .int value => -2 ^ 63 ≤ value ∧ value < 2 ^ 64
  | .string data => data.length < 2 ^ 31
  | .array elements => PresentedElements elements
  | .object members => PresentedMembers members
  | .null | .boolean _ | .double _ => True

def PresentedElements : List JsonObject → Prop
  | [] => True
  | element :: elements => element.Presented ∧ PresentedElements elements

def PresentedMembers : List (Option Bytes × JsonObject) → Prop
  | [] => True
  | (name, value) :: members =>
    (nameArg name).size ≤ lengthMax ∧ value.Presented ∧ PresentedMembers members

end

/-- The key of a member. -/
def nameKey (name : Option Bytes) : Bytes := (name.map cString).getD []

mutual

/-- A value of the document tree stands for a value of json-c. An integer is stored with a sign
when `int64_t` has it, and is the same number either way. -/
inductive JsonObject.Means : JsonObject → Value → Prop where
  | null : JsonObject.Means .null (.scalar .null)
  | boolean {value} : JsonObject.Means (.boolean value) (.scalar (.bool value))
  | int64 {value stored} (hsmall : value ≤ Int64.maxValue.toInt)
      (hvalue : Int64.toInt stored = value) :
      JsonObject.Means (.int value) (.scalar (.int64 stored))
  | uint64 {value stored} (hlarge : Int64.maxValue.toInt < value)
      (hvalue : (UInt64.toNat stored : Int) = value) :
      JsonObject.Means (.int value) (.scalar (.uint64 stored))
  | double {bits} : JsonObject.Means (.double bits) (.scalar (.float64 bits))
  | string {data} : JsonObject.Means (.string data) (.scalar (.string data))
  | array {elements values} (h : ElementsMean elements values) :
      JsonObject.Means (.array elements) (.array values)
  | object {members document} (h : MembersMean members document) :
      JsonObject.Means (.object members) (.block document)

inductive ElementsMean : List JsonObject → List Value → Prop where
  | nil : ElementsMean [] []
  | cons {element elements value values} (head : JsonObject.Means element value)
      (tail : ElementsMean elements values) : ElementsMean (element :: elements) (value :: values)

inductive MembersMean : List (Option Bytes × JsonObject) → Document → Prop where
  | nil : MembersMean [] []
  | cons {name object members value document} (head : JsonObject.Means object value)
      (tail : MembersMean members document) :
      MembersMean ((name, object) :: members) ((nameKey name, value) :: document)

end

/-! ## The calls of a conversion -/

/-- An integer as it is stored. -/
def integerScalar (value : Int) : Scalar :=
  if value ≤ Int64.maxValue.toInt then .int64 (.ofInt value) else .uint64 (.ofNat value.toNat)

/-- The call that adds a scalar, in a keyed scope or in an array. -/
def leafOp : Option KeyArg → Scalar → Op
  | some key, .null => .setNull key
  | some key, .bool value => .setBool key value
  | some key, .int64 value => .setInt64 key value
  | some key, .uint64 value => .setUint64 key value
  | some key, .float64 bits => .setFloat64 key bits
  | some key, .string value => .setString key value
  | none, .null => .appendNull
  | none, .bool value => .appendBool value
  | none, .int64 value => .appendInt64 value
  | none, .uint64 value => .appendUint64 value
  | none, .float64 bits => .appendFloat64 bits
  | none, .string value => .appendString value

mutual

/-- The calls that a value is converted by, under a key or as an element. -/
def JsonObject.ops (key : Option KeyArg) : JsonObject → List Op
  | .null => [leafOp key .null]
  | .boolean value => [leafOp key (.bool value)]
  | .int value => [leafOp key (integerScalar value)]
  | .double bits => [leafOp key (.float64 bits)]
  | .string data => [leafOp key (.string data)]
  | .array elements => .beginArray (key.getD (.null 0)) :: (elementsOps elements ++ [.endArray])
  | .object members => .beginBlock (key.getD (.null 0)) :: (membersOps members ++ [.endBlock])

def elementsOps : List JsonObject → List Op
  | [] => []
  | element :: elements => element.ops none ++ elementsOps elements

def membersOps : List (Option Bytes × JsonObject) → List Op
  | [] => []
  | (name, value) :: members => value.ops (some (nameArg name)) ++ membersOps members

end

mutual

/-- The value that the calls build. -/
def JsonObject.value : JsonObject → Value
  | .null => .scalar .null
  | .boolean value => .scalar (.bool value)
  | .int value => .scalar (integerScalar value)
  | .double bits => .scalar (.float64 bits)
  | .string data => .scalar (.string data)
  | .array elements => .array (elementsValues elements)
  | .object members => .block (membersDocument members)

def elementsValues : List JsonObject → List Value
  | [] => []
  | element :: elements => element.value :: elementsValues elements

def membersDocument : List (Option Bytes × JsonObject) → Document
  | [] => []
  | (name, value) :: members => (nameKey name, value.value) :: membersDocument members

end

theorem integerScalar_means {value : Int} (h : (JsonObject.int value).Presented) :
    (JsonObject.int value).Means (.scalar (integerScalar value)) := by
  obtain ⟨hmin, hmax⟩ := h
  unfold integerScalar
  split
  · rename_i hsmall
    refine .int64 hsmall (Int64.toInt_ofInt_of_le hmin ?_)
    rw [Int64.toInt_maxValue] at hsmall
    omega
  · rename_i hlarge
    have hlarge' : Int64.maxValue.toInt < value := Int.not_le.mp hlarge
    refine .uint64 hlarge' ?_
    rw [Int64.toInt_maxValue] at hlarge'
    rw [UInt64.toNat_ofNat', Nat.mod_eq_of_lt (by omega)]
    omega

/-- The saturation test tells the integers apart that `int64_t` has not. -/
theorem saturated_iff {value : Int} (h : (JsonObject.int value).Presented) :
    (jsonObjectGetInt64 value = Int64.maxValue ∧
      jsonObjectGetUint64 value > 0x7FFFFFFFFFFFFFFF) ↔ Int64.maxValue.toInt < value := by
  obtain ⟨hmin, hmax⟩ := h
  have hunsigned : jsonObjectGetUint64 value > 0x7FFFFFFFFFFFFFFF ↔ 2 ^ 63 - 1 < value := by
    rw [gt_iff_lt, UInt64.lt_iff_toNat_lt, jsonObjectGetUint64, UInt64.toNat_ofNat',
      Nat.mod_eq_of_lt (by omega)]
    change 2 ^ 63 - 1 < min value.toNat (2 ^ 64 - 1) ↔ _
    omega
  rw [hunsigned, Int64.toInt_maxValue]
  constructor
  · exact fun h => h.2
  · intro hlarge
    refine ⟨?_, hlarge⟩
    rw [jsonObjectGetInt64, Int64.toInt_minValue, Int64.toInt_maxValue,
      min_eq_right (by omega), max_eq_right (by omega)]
    rfl

theorem jsonObjectGetInt64_eq {value : Int} (h : (JsonObject.int value).Presented)
    (hsmall : value ≤ Int64.maxValue.toInt) : jsonObjectGetInt64 value = .ofInt value := by
  rw [jsonObjectGetInt64, min_eq_left hsmall, max_eq_right]
  exact h.1

theorem jsonObjectGetUint64_eq {value : Int} (h : (JsonObject.int value).Presented) :
    jsonObjectGetUint64 value = .ofNat value.toNat := by
  obtain ⟨hmin, hmax⟩ := h
  rw [jsonObjectGetUint64, min_eq_left (by omega)]

mutual

theorem JsonObject.value_means : ∀ {j : JsonObject}, j.Presented → j.Means j.value
  | .null, _ => .null
  | .boolean _, _ => .boolean
  | .int _, h => integerScalar_means h
  | .double _, _ => .double
  | .string _, _ => .string
  | .array _, h => .array (elementsValues_mean h)
  | .object _, h => .object (membersDocument_mean h)

theorem elementsValues_mean : ∀ {elements : List JsonObject}, PresentedElements elements →
    ElementsMean elements (elementsValues elements)
  | [], _ => .nil
  | _ :: _, ⟨h, hs⟩ => .cons (JsonObject.value_means h) (elementsValues_mean hs)

theorem membersDocument_mean : ∀ {members : List (Option Bytes × JsonObject)},
    PresentedMembers members → MembersMean members (membersDocument members)
  | [], _ => .nil
  | (_, _) :: _, ⟨_, h, hs⟩ => .cons (JsonObject.value_means h) (membersDocument_mean hs)

end

/-! ## The builder under a conversion -/

theorem step_leafOp {b : Builder} {key : Option KeyArg} {k : Bytes} (hplace : b.place key = some k)
    {s : Scalar} (hs : Builder.admits s = true) :
    b.step (leafOp key s) = some (b.add k (.scalar s)) := by
  cases key with
  | none =>
    have happend : b.append s = some (b.add k (.scalar s)) := by
      rw [b.append_eq s hs, hplace, Option.map_some]
    cases s <;> exact happend
  | some key =>
    have hset : b.set key s = some (b.add k (.scalar s)) := by
      rw [b.set_eq key s hs, hplace, Option.map_some]
    cases s <;> exact hset

theorem openScope_of_place {b : Builder} {key : Option KeyArg} {k : Bytes}
    (hplace : b.place key = some k) (kind : ScopeKind) :
    b.openScope kind (key.getD (.null 0)) =
      some { b with scopes := { kind, key := k, members := [] } :: b.scopes } := by
  rw [Builder.openScope_eq]
  cases key with
  | none =>
    rw [Builder.place] at hplace
    split at hplace
    · cases hplace
    · rename_i hkeyed
      cases hplace
      rw [if_neg hkeyed]
      rfl
  | some key =>
    rw [Builder.place] at hplace
    split at hplace
    · rename_i hkeyed
      rw [if_pos hkeyed, Option.getD_some, hplace, Option.map_some]
    · cases hplace

theorem place_nameArg {b : Builder} (hkeyed : b.keyed = true) {name : Option Bytes}
    (hname : (nameArg name).size ≤ lengthMax) :
    b.place (some (nameArg name)) = some (nameKey name) := by
  rw [Builder.place, if_pos hkeyed]
  cases name with
  | none => rfl
  | some memory => exact if_pos hname

theorem keyed_add (b : Builder) (key : Bytes) (value : Value) :
    (b.add key value).keyed = b.keyed := by
  obtain ⟨members, scopes⟩ := b
  cases scopes <;> rfl

/-- The members of a scope that is opened, filled and closed are a value of the one around. -/
theorem run_container {b : Builder} {key : Option KeyArg} {k : Bytes}
    (hplace : b.place key = some k) (kind : ScopeKind) {body : List Op}
    {members : List (Bytes × Value)} {begin finish : Op}
    (hbegin : b.step begin = b.openScope kind (key.getD (.null 0)))
    (hbody : ∀ b' : Builder, b'.keyed = (kind = .block : Bool) →
      b'.run body = some (b'.addAll members))
    (hfinish : ∀ b' : Builder, b'.step finish = b'.close kind) :
    b.run (begin :: (body ++ [finish])) =
      some (b.add k (Scope.value { kind, key := k, members })) := by
  rw [Builder.run, hbegin, openScope_of_place hplace, Option.bind_some, Builder.run_append,
    hbody _ rfl, Option.bind_some, Builder.run, hfinish]
  simp [Builder.addAll, Builder.close, Builder.run]

theorem run_leafOp {b : Builder} {key : Option KeyArg} {k : Bytes} (hplace : b.place key = some k)
    {s : Scalar} (hs : Builder.admits s = true) :
    b.run [leafOp key s] = some (b.add k (.scalar s)) := by
  rw [Builder.run, step_leafOp hplace hs]
  rfl

theorem admits_integerScalar (value : Int) : Builder.admits (integerScalar value) = true := by
  unfold integerScalar
  split <;> rfl

mutual

/-- The calls of a value add it to the current scope. -/
theorem JsonObject.run_ops : ∀ {j : JsonObject}, j.Presented → ∀ {b : Builder}
    {key : Option KeyArg} {k : Bytes}, b.place key = some k →
      b.run (j.ops key) = some (b.add k j.value)
  | .null, _, _, _, _, hplace => run_leafOp hplace rfl
  | .boolean _, _, _, _, _, hplace => run_leafOp hplace rfl
  | .int value, _, _, _, _, hplace => run_leafOp hplace (admits_integerScalar value)
  | .double _, _, _, _, _, hplace => run_leafOp hplace rfl
  | .string data, h, _, _, _, hplace => by
    have hlength : data.length < 2 ^ 31 := h
    have hmax : data.length ≤ lengthMax := by
      rw [lengthMax]
      omega
    exact run_leafOp hplace (decide_eq_true hmax)
  | .array elements, h, _, _, k, hplace => by
    refine (run_container hplace .array rfl (fun b' hb' => run_elementsOps h hb')
      fun _ => rfl).trans ?_
    rw [JsonObject.value, Scope.value]
    simp only [List.map_map, Function.comp_def, List.map_id']
  | .object members, h, _, _, _, hplace =>
    run_container hplace .block rfl (fun b' hb' => run_membersOps h hb') fun _ => rfl

theorem run_elementsOps : ∀ {elements : List JsonObject}, PresentedElements elements →
    ∀ {b : Builder}, b.keyed = false →
      b.run (elementsOps elements) =
        some (b.addAll ((elementsValues elements).map fun value => ([], value)))
  | [], _, b, _ => congrArg some b.addAll_nil.symm
  | element :: elements, ⟨h, hs⟩, b, hb => by
    have hplace : b.place none = some [] := by rw [Builder.place, if_neg (by simp [hb])]
    rw [elementsOps, Builder.run_append, JsonObject.run_ops h hplace, Option.bind_some,
      run_elementsOps hs ((keyed_add ..).trans hb), Builder.add_addAll]
    rfl

theorem run_membersOps : ∀ {members : List (Option Bytes × JsonObject)},
    PresentedMembers members → ∀ {b : Builder}, b.keyed = true →
      b.run (membersOps members) = some (b.addAll (membersDocument members))
  | [], _, b, _ => congrArg some b.addAll_nil.symm
  | (name, value) :: members, ⟨hname, h, hs⟩, b, hb => by
    rw [membersOps, Builder.run_append, JsonObject.run_ops h (place_nameArg hb hname),
      Option.bind_some, run_membersOps hs ((keyed_add ..).trans hb), Builder.add_addAll]
    rfl

end

/-! ## The conversion is these calls -/

theorem Writer.runs_append {env : Env} {w : Writer} (ops later : List Op) :
    w.runs env (ops ++ later) = (w.runs env ops).bind fun w' => w'.runs env later := by
  induction ops generalizing w with
  | nil => rfl
  | cons op ops ih =>
    simp only [List.cons_append, Writer.runs]
    split
    · exact ih
    · rfl

theorem Writer.runs_single {env : Env} {w w' : Writer} {op : Op}
    (h : w.runs env [op] = some w') : w.step env op = some (true, w') := by
  rw [Writer.runs] at h
  split at h
  · rename_i hstep
    cases h
    exact hstep
  · cases h

/-- One of the two recursions: under a key, or for an element. -/
def emitValueAt (env : Env) (w : Writer) (key : Option KeyArg) (sink : Option ConvertError)
    (j : JsonObject) : Emitted :=
  match key with
  | some key => emitValueKeyed env w key sink j
  | none => emitValueIndexed env w sink j

theorem emitContainer_of_runs {env : Env} {w w' : Writer} {sink : Option ConvertError}
    {begin finish : Op} {body : List Op} {beginFailed endFailed : String}
    {emitBody : Writer → Emitted} {finished : Writer → Option (Bool × Writer)}
    (hfinished : ∀ w : Writer, finished w = w.step env finish)
    (hbody : ∀ w₁ w₂ : Writer, w₁.runs env body = some w₂ → emitBody w₁ = some (true, w₂, sink))
    (hrun : w.runs env (begin :: (body ++ [finish])) = some w') :
    emitContainer sink (w.step env begin) beginFailed emitBody finished endFailed =
      some (true, w', sink) := by
  rw [Writer.runs] at hrun
  split at hrun
  swap
  · cases hrun
  rename_i w₁ hbegin
  rw [Writer.runs_append] at hrun
  obtain ⟨w₂, hw₂, hrun⟩ := Option.bind_eq_some_iff.mp hrun
  have hend := Writer.runs_single hrun
  unfold emitContainer
  rw [hbegin]
  simp [hbody w₁ w₂ hw₂, hfinished, hend]

theorem emitCall_of_runs {env : Env} {w w' : Writer} {op : Op} (sink : Option ConvertError)
    (hrun : w.runs env [op] = some w') : emitCall sink (w.step env op) = some (true, w', sink) := by
  rw [Writer.runs_single hrun]
  rfl

theorem emitInteger_of_runs {env : Env} {w w' : Writer} {key : Option KeyArg} {value : Int}
    (sink : Option ConvertError) (h : (JsonObject.int value).Presented)
    (hrun : w.runs env [leafOp key (integerScalar value)] = some w') :
    emitValueAt env w key sink (.int value) = some (true, w', sink) := by
  have hcall := emitCall_of_runs sink hrun
  unfold integerScalar at hcall
  by_cases hlarge : Int64.maxValue.toInt < value
  · rw [if_neg (Int.not_le.mpr hlarge), ← jsonObjectGetUint64_eq h] at hcall
    cases key with
    | none => exact (if_pos ((saturated_iff h).mpr hlarge)).trans hcall
    | some key => exact (if_pos ((saturated_iff h).mpr hlarge)).trans hcall
  · have hsmall := Int.not_lt.mp hlarge
    rw [if_pos hsmall, ← jsonObjectGetInt64_eq h hsmall] at hcall
    cases key with
    | none => exact (if_neg (mt (saturated_iff h).mp hlarge)).trans hcall
    | some key => exact (if_neg (mt (saturated_iff h).mp hlarge)).trans hcall

theorem jsonObjectGetStringLen_eq {data : Bytes} (h : data.length < 2 ^ 31) :
    jsonObjectGetStringLen data = data.length := by
  rw [jsonObjectGetStringLen, Int32.toInt_ofNat_of_lt h]

mutual

theorem emitValueAt_of_runs {env : Env} {sink : Option ConvertError} :
    ∀ {j : JsonObject}, j.Presented → ∀ {w w' : Writer} {key : Option KeyArg},
      w.runs env (j.ops key) = some w' → emitValueAt env w key sink j = some (true, w', sink)
  | .null, _, _, _, none, hrun => emitCall_of_runs sink hrun
  | .null, _, _, _, some _, hrun => emitCall_of_runs sink hrun
  | .boolean _, _, _, _, none, hrun => emitCall_of_runs sink hrun
  | .boolean _, _, _, _, some _, hrun => emitCall_of_runs sink hrun
  | .int _, h, _, _, _, hrun => emitInteger_of_runs sink h hrun
  | .double _, _, _, _, none, hrun => emitCall_of_runs sink hrun
  | .double _, _, _, _, some _, hrun => emitCall_of_runs sink hrun
  | .string data, h, w, w', key, hrun => by
    have hcall := emitCall_of_runs sink hrun
    have hlength := jsonObjectGetStringLen_eq h
    have hnonneg : ¬(data.length : Int) < 0 := Int.not_lt.mpr (Int.natCast_nonneg _)
    cases key with
    | none =>
      rw [emitValueAt, emitValueIndexed, hlength]
      simp only [if_neg hnonneg, Int.toNat_natCast, List.take_length]
      exact hcall
    | some key =>
      rw [emitValueAt, emitValueKeyed, hlength]
      simp only [if_neg hnonneg, Int.toNat_natCast, List.take_length]
      exact hcall
  | .array _, h, _, _, none, hrun =>
    emitContainer_of_runs (fun _ => rfl) (fun _ _ => emitArrayBody_of_runs h) hrun
  | .array _, h, _, _, some _, hrun =>
    emitContainer_of_runs (fun _ => rfl) (fun _ _ => emitArrayBody_of_runs h) hrun
  | .object _, h, _, _, none, hrun =>
    emitContainer_of_runs (fun _ => rfl) (fun _ _ => emitObjectBody_of_runs h) hrun
  | .object _, h, _, _, some _, hrun =>
    emitContainer_of_runs (fun _ => rfl) (fun _ _ => emitObjectBody_of_runs h) hrun

theorem emitArrayBody_of_runs {env : Env} {sink : Option ConvertError} :
    ∀ {elements : List JsonObject}, PresentedElements elements → ∀ {w w' : Writer},
      w.runs env (elementsOps elements) = some w' →
        emitArrayBody env w sink elements = some (true, w', sink)
  | [], _, _, _, hrun => by cases hrun; rfl
  | element :: elements, ⟨h, hs⟩, w, w', hrun => by
    rw [elementsOps, Writer.runs_append] at hrun
    obtain ⟨w₁, hfirst, hrest⟩ := Option.bind_eq_some_iff.mp hrun
    have hemit : emitValueIndexed env w sink element = some (true, w₁, sink) :=
      emitValueAt_of_runs h hfirst
    rw [emitArrayBody, hemit]
    exact emitArrayBody_of_runs hs hrest

theorem emitObjectBody_of_runs {env : Env} {sink : Option ConvertError} :
    ∀ {members : List (Option Bytes × JsonObject)}, PresentedMembers members → ∀ {w w' : Writer},
      w.runs env (membersOps members) = some w' →
        emitObjectBody env w sink members = some (true, w', sink)
  | [], _, _, _, hrun => by cases hrun; rfl
  | (name, value) :: members, ⟨_, h, hs⟩, w, w', hrun => by
    rw [membersOps, Writer.runs_append] at hrun
    obtain ⟨w₁, hfirst, hrest⟩ := Option.bind_eq_some_iff.mp hrun
    have hemit : emitValueKeyed env w (nameArg name) sink value = some (true, w₁, sink) :=
      emitValueAt_of_runs h hfirst
    rw [emitObjectBody, hemit]
    exact emitObjectBody_of_runs hs hrest

end

/-! ## Every conversion -/

/-- A writer whose error flag is not set has had no construction call rejected. -/
theorem perform_valid {w w' : Writer} {calls : List (Env × Call)} {answers : List Answer}
    (hrun : w.perform calls = some (answers, w')) (hvalid : w'.errorFlag = false) :
    List.Forall₂ (fun c a => c.2.isFinalize = false → a.success = true) calls answers := by
  induction calls generalizing w answers with
  | nil =>
    cases hrun
    exact .nil
  | cons c calls ih =>
    obtain ⟨env, c⟩ := c
    rw [Writer.perform] at hrun
    split at hrun
    · cases hrun
    rename_i a w₁ hcall
    obtain ⟨⟨answers', w₂⟩, hrest, heq⟩ := Option.map_eq_some_iff.mp hrun
    cases heq
    refine .cons ?_ (ih hrest)
    intro hc
    cases c with
    | finalizeToBuffer => cases hc
    | finalizeToFile file => cases hc
    | op op =>
      by_contra hfailed
      have hfalse : a.success = false := Bool.eq_false_iff.mpr hfailed
      obtain ⟨⟨success, w₃⟩, hstep, heq⟩ := Option.map_eq_some_iff.mp hcall
      cases heq
      cases hfalse
      -- the flag that the call has set is still there
      have hflag := step_flags env w op w₁ hstep
      obtain ⟨answers₂, w₄, hrest', -, hsame⟩ := perform_flagged hflag calls
      cases hrest.symm.trans hrest'
      rw [hsame, hflag] at hvalid
      cases hvalid

/-- A writer with new members at the end of its current scope: it stands for the same tree as
before but for them, by the same nodes in the same places, with nodes of theirs behind. -/
structure Appended (hash64 : Bytes → UInt64) (w w' : Writer) (document : Document) : Prop where
  scope : w'.currentScope = w.currentScope
  nodes : ∃ b opened done new, Represents hash64 w b opened done ∧
    Represents hash64 w' (b.addAll document) (hang opened done new).1 (hang opened done new).2 ∧
    DenotesMembers hash64 w'.nodes new document
  untouched : ∀ id < w.nodes.length, SameContent w.nodes w'.nodes id

/-- On every writer that no call has failed on, at the root or in a block, the body of an
object of json-c is converted with `true`: the current scope is the same, and has one new child
per member, which stands for its name and value. -/
theorem emit_object_body_appends {hash64 : Bytes → UInt64} {options : Option WriterOptions}
    {calls : List (Env × Call)} {answers : List Answer} {w : Writer}
    (hhash : ∀ c ∈ calls, c.1.hash64 = hash64)
    (hrun : (Writer.create options).perform calls = some (answers, w))
    (hvalid : w.errorFlag = false) (hscope : expectKeyedScope w = some true)
    {env : Env} (henv : ∀ i, env.arenaAllocates i = true) (hash_env : env.hash64 = hash64)
    {members : List (Option Bytes × JsonObject)} (hmembers : PresentedMembers members)
    (hroom : w.arenaUsed + ((membersOps members).map Op.cost).sum < 2 ^ 63)
    (sink : Option ConvertError) :
    ∃ w' document, emitObjectBody env w sink members = some (true, w', sink) ∧
      w'.errorFlag = false ∧ MembersMean members document ∧ Appended hash64 w w' document := by
  obtain ⟨b, hb, htracks₀, -⟩ := perform_tracks hhash (create_tracks _ options)
    (by simp [Writer.create]) hrun (perform_valid hrun hvalid)
  have htracks : Tracks env w b := htracks₀.of_hash hash_env
  have hkeyed : b.keyed = true := Option.some.inj (htracks.expect.1.symm.trans hscope)
  obtain ⟨w', hruns, htracks'⟩ :=
    runs_of_builder henv htracks (run_membersOps hmembers hkeyed) hroom
  have hgrows : Grows w w' := runs_grows htracks (by omega) hruns
  obtain ⟨opened, done, hrepresents⟩ := htracks.agrees.represents
  obtain ⟨opened', done', hrepresents'⟩ := htracks'.agrees.represents
  obtain ⟨hcurrent, new, hnew, hhang⟩ := hrepresents.hang_of_grows hgrows hrepresents'
  subst hash_env
  refine ⟨w', membersDocument members, emitObjectBody_of_runs hmembers hruns, htracks'.valid,
    membersDocument_mean hmembers, hcurrent, ⟨b, opened, done, new, hrepresents, ?_, hnew⟩,
    fun id hid => hgrows.sameContent hid⟩
  rw [← hhang]
  exact hrepresents'

/-- A number that `int64_t` has not and an array with an object in it, in a block that has a
member already. -/
theorem emit_object_body_appends_block :
    let env := Env.succeeding fun _ => 0
    let members : List (Option Bytes × JsonObject) := [(some [110], .int 18446744073709551615),
      (some [97], .array [.boolean true, .object [(some [107], .string [118])]])]
    ∃ answers w w' document,
      (Writer.create none).perform [(env, .op (.beginBlock (.data [98]))),
        (env, .op (.setInt64 (.data [120]) 7))] = some (answers, w) ∧
      emitObjectBody env w none members = some (true, w', none) ∧
      w'.errorFlag = false ∧ MembersMean members document ∧
      Appended (fun _ => 0) w w' document := by
  intro env members
  obtain ⟨answers, w, hrun, hvalid, hscope, hused⟩ : ∃ answers w,
      (Writer.create none).perform [(env, .op (.beginBlock (.data [98]))),
        (env, .op (.setInt64 (.data [120]) 7))] = some (answers, w) ∧
      w.errorFlag = false ∧ expectKeyedScope w = some true ∧ w.arenaUsed = 178 :=
    ⟨_, _, rfl, rfl, rfl, rfl⟩
  have hhash : ∀ c ∈ [(env, Call.op (.beginBlock (.data [98]))),
      (env, .op (.setInt64 (.data [120]) 7))], c.1.hash64 = fun _ => 0 := by
    intro c hc
    simp only [List.mem_cons, List.not_mem_nil, or_false] at hc
    rcases hc with rfl | rfl <;> rfl
  have henv : env.Succeeds := Env.succeeding_succeeds _
  have hmembers : PresentedMembers members := by
    simp [members, PresentedMembers, PresentedElements, JsonObject.Presented, nameArg, cString,
      KeyArg.size]
  obtain ⟨w', document, hemit⟩ := emit_object_body_appends hhash hrun hvalid hscope
    henv.arena rfl hmembers (by rw [hused]; decide) none
  exact ⟨answers, w, w', document, hrun, hemit⟩

end Hrbl
