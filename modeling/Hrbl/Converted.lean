import Hrbl.Acceptance
import Hrbl.Conversion
import Hrbl.JsonExport
import Hrbl.Reaching

/-!
# From JSON to a file and back

`bc_hrbl_convert_json_buffer_to_hrbl` is all of the way from a text to a file. It is one
transaction: whatever allocations fail, there is either no file, or the file of all that json-c
has presented. Exported again, that file is a JSON text for the same values.
-/

namespace Hrbl

open Lib NodeTree

/-! ## The function -/

/-- What `bc_hrbl_convert_json_buffer_to_hrbl` is called with: which of its pointers are not
null, and whether `bc_hrbl_writer_create` succeeds. -/
structure BufferCall where
  memoryContext : Bool
  jsonText : Option Bytes
  outBuffer : Bool
  outSize : Bool
  created : Bool
deriving Repr, DecidableEq

/-- The second half of it: the writer is finalized if the conversion has succeeded. -/
def finalizeConverted (env : Env) : Option (Bool × Option Writer × Option ConvertError) →
    Option (Bool × Option Bytes × Option ConvertError)
  | some (true, some w, sink) =>
    match finalizeToBuffer env w with
    | .returned buffer _ => some (true, some buffer, sink)
    | .refused _ => some (false, none, sink)
    | .faulted | .divergent => none
  | some (_, _, sink) => some (false, none, sink)
  | none => none

/-- `bc_hrbl_convert_json_buffer_to_hrbl`, with the buffer it hands out. -/
def convertJsonBufferToHrbl (env : Env) (tokener : JsonTokener) (call : BufferCall)
    (outError : Option ConvertError) : Option (Bool × Option Bytes × Option ConvertError) :=
  if !call.memoryContext ∨ call.jsonText = none ∨ !call.outBuffer ∨ !call.outSize then
    some (false, none, outError)
  else if !call.created then some (false, none, outError)
  else
    finalizeConverted env
      (convertJsonToWriter env tokener (some (Writer.create none)) call.jsonText outError)

/-! ## Conversions that succeed -/

theorem Writer.runs_cons {env : Env} {w w₁ w' : Writer} {op : Op} {ops : List Op}
    (h : w.step env op = some (true, w₁)) (h' : w₁.runs env ops = some w') :
    w.runs env (op :: ops) = some w' := by
  rw [Writer.runs, h]
  exact h'

theorem runs_of_emitCall {env : Env} {w w' : Writer} {op : Op} {sink sink' : Option ConvertError}
    (h : emitCall sink (w.step env op) = some (true, w', sink')) :
    w.runs env [op] = some w' ∧ sink' = sink := by
  obtain ⟨⟨success, w₁⟩, hstep, heq⟩ := Option.map_eq_some_iff.mp h
  cases heq
  exact ⟨Writer.runs_cons hstep rfl, rfl⟩

/-- A container that is emitted has been begun, filled and ended. -/
theorem runs_of_emitContainer {env : Env} {w w' : Writer} {sink sink' : Option ConvertError}
    {begin finish : Op} {body : List Op} {beginFailed endFailed : String}
    {emitBody : Writer → Emitted} {finished : Writer → Option (Bool × Writer)}
    (hfinished : ∀ w : Writer, finished w = w.step env finish)
    (hbody : ∀ w₁ w₂ sink₂, emitBody w₁ = some (true, w₂, sink₂) →
      w₁.runs env body = some w₂ ∧ sink₂ = sink)
    (h : emitContainer sink (w.step env begin) beginFailed emitBody finished endFailed =
      some (true, w', sink')) :
    w.runs env (begin :: (body ++ [finish])) = some w' ∧ sink' = sink := by
  unfold emitContainer at h
  obtain ⟨⟨begun, w₁⟩, hbegin, h⟩ := Option.bind_eq_some_iff.mp h
  cases begun with
  | false => cases h
  | true =>
    obtain ⟨⟨emitted, w₂, sink₂⟩, hemit, h⟩ := Option.bind_eq_some_iff.mp h
    cases emitted with
    | false => cases h
    | true =>
      obtain ⟨⟨ended, w₃⟩, hend, h⟩ := Option.bind_eq_some_iff.mp h
      cases ended with
      | false => cases h
      | true =>
        cases h
        obtain ⟨hruns, hsink⟩ := hbody w₁ w₂ sink' hemit
        rw [hfinished] at hend
        refine ⟨Writer.runs_cons hbegin ?_, hsink⟩
        rw [Writer.runs_append, hruns]
        exact Writer.runs_cons hend rfl

theorem runs_of_emitInteger {env : Env} {w w' : Writer} {key : Option KeyArg} {value : Int}
    {sink sink' : Option ConvertError} (h : (JsonObject.int value).Presented)
    (hemit : emitValueAt env w key sink (.int value) = some (true, w', sink')) :
    w.runs env [leafOp key (integerScalar value)] = some w' ∧ sink' = sink := by
  refine runs_of_emitCall ?_
  unfold integerScalar
  by_cases hlarge : Int64.maxValue.toInt < value
  -- `int64_t` has not the number
  · rw [if_neg (Int.not_le.mpr hlarge), ← jsonObjectGetUint64_eq h]
    cases key with
    | none => exact (if_pos ((saturated_iff h).mpr hlarge)).symm.trans hemit
    | some key => exact (if_pos ((saturated_iff h).mpr hlarge)).symm.trans hemit
  · have hsmall := Int.not_lt.mp hlarge
    rw [if_pos hsmall, ← jsonObjectGetInt64_eq h hsmall]
    cases key with
    | none => exact (if_neg (mt (saturated_iff h).mp hlarge)).symm.trans hemit
    | some key => exact (if_neg (mt (saturated_iff h).mp hlarge)).symm.trans hemit

mutual

/-- A value that is emitted is emitted by its calls. -/
theorem runs_of_emitValueAt {env : Env} {sink : Option ConvertError} :
    ∀ {j : JsonObject}, j.Presented → ∀ {w w' : Writer} {key : Option KeyArg}
      {sink' : Option ConvertError}, emitValueAt env w key sink j = some (true, w', sink') →
        w.runs env (j.ops key) = some w' ∧ sink' = sink
  | .null, _, _, _, none, _, h => runs_of_emitCall h
  | .null, _, _, _, some _, _, h => runs_of_emitCall h
  | .boolean _, _, _, _, none, _, h => runs_of_emitCall h
  | .boolean _, _, _, _, some _, _, h => runs_of_emitCall h
  | .int _, hj, _, _, _, _, h => runs_of_emitInteger hj h
  | .double _, _, _, _, none, _, h => runs_of_emitCall h
  | .double _, _, _, _, some _, _, h => runs_of_emitCall h
  | .string data, hj, w, w', key, sink', h => by
    have hlength := jsonObjectGetStringLen_eq hj
    have hnonneg : ¬(data.length : Int) < 0 := Int.not_lt.mpr (Int.natCast_nonneg _)
    cases key with
    | none =>
      rw [emitValueAt, emitValueIndexed, hlength] at h
      simp only [if_neg hnonneg, Int.toNat_natCast, List.take_length] at h
      exact runs_of_emitCall h
    | some key =>
      rw [emitValueAt, emitValueKeyed, hlength] at h
      simp only [if_neg hnonneg, Int.toNat_natCast, List.take_length] at h
      exact runs_of_emitCall h
  | .array _, hj, _, _, none, _, h =>
    runs_of_emitContainer (fun _ => rfl) (fun _ _ _ => runs_of_emitArrayBody hj) h
  | .array _, hj, _, _, some _, _, h =>
    runs_of_emitContainer (fun _ => rfl) (fun _ _ _ => runs_of_emitArrayBody hj) h
  | .object _, hj, _, _, none, _, h =>
    runs_of_emitContainer (fun _ => rfl) (fun _ _ _ => runs_of_emitObjectBody hj) h
  | .object _, hj, _, _, some _, _, h =>
    runs_of_emitContainer (fun _ => rfl) (fun _ _ _ => runs_of_emitObjectBody hj) h

theorem runs_of_emitArrayBody {env : Env} {sink : Option ConvertError} :
    ∀ {elements : List JsonObject}, PresentedElements elements → ∀ {w w' : Writer}
      {sink' : Option ConvertError}, emitArrayBody env w sink elements = some (true, w', sink') →
        w.runs env (elementsOps elements) = some w' ∧ sink' = sink
  | [], _, _, _, _, h => by
    cases h
    exact ⟨rfl, rfl⟩
  | element :: elements, ⟨hj, hs⟩, w, w', sink', h => by
    rw [emitArrayBody] at h
    obtain ⟨⟨emitted, w₁, sink₁⟩, hfirst, hrest⟩ := Option.bind_eq_some_iff.mp h
    cases emitted with
    | false => cases hrest
    | true =>
      have hvalue : emitValueAt env w none sink element = some (true, w₁, sink₁) := hfirst
      obtain ⟨hruns, hsink⟩ := runs_of_emitValueAt hj hvalue
      subst hsink
      rw [elementsOps, Writer.runs_append, hruns]
      exact runs_of_emitArrayBody hs hrest

theorem runs_of_emitObjectBody {env : Env} {sink : Option ConvertError} :
    ∀ {members : List (Option Bytes × JsonObject)}, PresentedMembers members → ∀ {w w' : Writer}
      {sink' : Option ConvertError}, emitObjectBody env w sink members = some (true, w', sink') →
        w.runs env (membersOps members) = some w' ∧ sink' = sink
  | [], _, _, _, _, h => by
    cases h
    exact ⟨rfl, rfl⟩
  | (name, value) :: members, ⟨_, hj, hs⟩, w, w', sink', h => by
    rw [emitObjectBody] at h
    obtain ⟨⟨emitted, w₁, sink₁⟩, hfirst, hrest⟩ := Option.bind_eq_some_iff.mp h
    cases emitted with
    | false => cases hrest
    | true =>
      have hvalue : emitValueAt env w (some (nameArg name)) sink value =
        some (true, w₁, sink₁) := hfirst
      obtain ⟨hruns, hsink⟩ := runs_of_emitValueAt hj hvalue
      subst hsink
      rw [membersOps, Writer.runs_append, hruns]
      exact runs_of_emitObjectBody hs hrest

end

/-! ## Texts -/

/-- json-c takes the text for an object with these members, and nothing but white space is
behind it. -/
structure JsonTokener.Parses (tokener : JsonTokener) (text : Bytes)
    (members : List (Option Bytes × JsonObject)) : Prop where
  length_le : text.length ≤ 2 ^ 31 - 1
  created : tokener.created = true
  succeeds : (tokener.parse text).errorDesc = none
  root : (tokener.parse text).root = .object members
  behind : trailingContent text (tokener.parse text).parseEnd = none

/-- A text is converted only when it is parsed. -/
theorem parses_of_convertText {env : Env} {tokener : JsonTokener} {w w' : Writer} {text : Bytes}
    {sink sink' : Option ConvertError}
    (h : convertText env tokener w text sink = some (true, w', sink')) :
    ∃ members, tokener.Parses text members ∧
      emitObjectBody env w sink members = some (true, w', sink') := by
  unfold convertText at h
  dsimp only at h
  split at h
  · cases h
  rename_i hlength
  split at h
  · cases h
  rename_i hcreated
  split at h
  · cases h
  rename_i hsucceeds
  split at h
  · cases h
  split at h
  · cases h
  rename_i hbehind
  split at h
  · rename_i members hroot
    refine ⟨members, ⟨Nat.not_lt.mp hlength, ?_, hsucceeds, hroot, hbehind⟩, h⟩
    simpa using hcreated
  · cases h

/-- The sink as `bc_hrbl_convert_json_to_writer` clears it. -/
def clearedSink (outError : Option ConvertError) : Option ConvertError :=
  outError.map fun _ => { message := none, byteOffset := 0, line := 0, column := 0 }

theorem convertJsonToWriter_some (env : Env) (tokener : JsonTokener) (w : Writer) (text : Bytes)
    (outError : Option ConvertError) :
    convertJsonToWriter env tokener (some w) (some text) outError =
      (convertText env tokener w text (clearedSink outError)).map
        fun result => (result.1, some result.2.1, result.2.2) := rfl

/-! ## All or nothing -/

/-- What json-c presents has numbers of 64 bits and strings counted by an `int`, and its arrays
have fewer elements than a text has bytes. -/
def JsonTokener.Presents (tokener : JsonTokener) : Prop :=
  ∀ text, text.length ≤ 2 ^ 31 - 1 →
    (tokener.parse text).root.Presented ∧ (tokener.parse text).root.value.ArraysNarrow

/-- The members that have been emitted are stored in the writer. -/
theorem members_stored {env : Env} {w : Writer} {members : List (Option Bytes × JsonObject)}
    (hmembers : PresentedMembers members)
    (hruns : (Writer.create none).runs env (membersOps members) = some w) :
    ∃ trees, Stored env w trees (membersDocument members) := by
  obtain ⟨b, hb, htracks, -, -⟩ :=
    runs_tracks (create_tracks env none) (by simp [Writer.create]) hruns
  have hrun : Builder.empty.run (membersOps members) = some ⟨membersDocument members, []⟩ :=
    run_membersOps hmembers rfl
  cases hb.symm.trans hrun
  obtain ⟨opened, done, hcurrent, -, -, hmatches⟩ := htracks.shape
  have hclosed : w.currentScope = none := by
    cases hmatches.scopes
    exact hcurrent
  exact (htracks.stored hclosed).2

/-- A file of a document, with what a client reads from it. -/
structure ReadsAs (hash64 : Bytes → UInt64) (file : Bytes) (document : Document) : Prop where
  bytes_eq : file = documentFile hash64 document
  reads : file.length < 2 ^ 32 → ∀ b : Buffer, b.bytes = file →
    ∃ r, openBuffer true b = .ok r ∧ readDocument r = .ok (document.inFileOrder hash64)

theorem readsAs_documentFile (hash64 : Bytes → UInt64) (document : Document) :
    ReadsAs hash64 (documentFile hash64 document) document := by
  refine ⟨rfl, ?_⟩
  intro hsize b hbytes
  rw [length_documentFile] at hsize
  exact ⟨_, openBuffer_document hbytes, readDocument_document hbytes hsize⟩

/-- Whatever allocations fail, a conversion to a buffer returns `true` exactly when it hands out
a buffer, and then the text has been parsed and the buffer is the file of all of its members. -/
theorem converted_whole {env : Env} {tokener : JsonTokener} (hpresents : tokener.Presents)
    {call : BufferCall} {outError sink : Option ConvertError} {success : Bool}
    {output : Option Bytes}
    (h : convertJsonBufferToHrbl env tokener call outError = some (success, output, sink)) :
    (success = true ↔ output.isSome = true) ∧
      ∀ file, output = some file → ∃ text members document, call.jsonText = some text ∧
        tokener.Parses text members ∧ MembersMean members document ∧
        ReadsAs env.hash64 file document ∧ sink = clearedSink outError := by
  have hfailed : ∀ {sink₁ : Option ConvertError},
      some (false, none, sink₁) = some (success, output, sink) →
      (success = true ↔ output.isSome = true) ∧ ∀ file, output = some file →
        ∃ text members document, call.jsonText = some text ∧
          tokener.Parses text members ∧ MembersMean members document ∧
          ReadsAs env.hash64 file document ∧ sink = clearedSink outError := by
    intro sink₁ heq
    cases heq
    refine ⟨by simp, fun file hfile => ?_⟩
    cases hfile
  unfold convertJsonBufferToHrbl at h
  split at h
  · exact hfailed h
  rename_i hpointers
  split at h
  · exact hfailed h
  obtain ⟨text, htext⟩ : ∃ text, call.jsonText = some text := by
    refine Option.ne_none_iff_exists'.mp fun hnone => hpointers ?_
    rw [hnone]
    simp
  rw [htext, convertJsonToWriter_some] at h
  cases hconvert : convertText env tokener (Writer.create none) text (clearedSink outError) with
  | none =>
    rw [hconvert] at h
    cases h
  | some result =>
    obtain ⟨converted, w, sink₁⟩ := result
    rw [hconvert, Option.map_some] at h
    cases converted with
    | false => exact hfailed h
    | true =>
      -- every call on the writer has returned `true`
      obtain ⟨members, hparses, hemit⟩ := parses_of_convertText hconvert
      obtain ⟨hroot, harrays⟩ := hpresents text hparses.length_le
      rw [hparses.root] at hroot harrays
      obtain ⟨hruns, rfl⟩ := runs_of_emitObjectBody hroot hemit
      obtain ⟨trees, hstored⟩ := members_stored hroot hruns
      unfold finalizeConverted at h
      dsimp only at h
      cases hfinalized : finalizeToBuffer env w with
      | refused v =>
        rw [hfinalized] at h
        exact hfailed h
      | faulted =>
        rw [hfinalized] at h
        cases h
      | divergent =>
        rw [hfinalized] at h
        cases h
      | returned buffer v =>
        rw [hfinalized] at h
        cases h
        obtain ⟨-, rfl⟩ := finalizeToBuffer_file hstored harrays hfinalized
        refine ⟨by simp, fun file hsome => ?_⟩
        cases hsome
        exact ⟨text, members, _, htext, hparses, membersDocument_mean hroot,
          readsAs_documentFile _ _, rfl⟩

/-- json-c on one text, which it takes for these members. -/
def tokenerOf (text : Bytes) (members : List (Option Bytes × JsonObject)) : JsonTokener where
  created := true
  parse := fun given =>
    if given = text then ⟨none, .object members, text.length⟩
    else ⟨some "unexpected character", .null, 0⟩

theorem tokenerOf_parses {text : Bytes} (hlength : text.length ≤ 2 ^ 31 - 1)
    (members : List (Option Bytes × JsonObject)) :
    (tokenerOf text members).Parses text members := by
  constructor
  · exact hlength
  · rfl
  · exact congrArg Parse.errorDesc (if_pos rfl)
  · exact congrArg Parse.root (if_pos rfl)
  · have hend : ((tokenerOf text members).parse text).parseEnd = text.length :=
      congrArg Parse.parseEnd (if_pos rfl)
    rw [hend, trailingContent, List.drop_length]
    rfl

theorem tokenerOf_presents {text : Bytes} {members : List (Option Bytes × JsonObject)}
    (hmembers : PresentedMembers members)
    (harrays : membersArraysNarrow (membersDocument members)) :
    (tokenerOf text members).Presents := by
  intro given _
  by_cases hgiven : given = text
  · have hroot : ((tokenerOf text members).parse given).root = .object members :=
      congrArg Parse.root (if_pos hgiven)
    rw [hroot]
    exact ⟨hmembers, harrays⟩
  · have hroot : ((tokenerOf text members).parse given).root = .null :=
      congrArg Parse.root (if_neg hgiven)
    rw [hroot]
    exact ⟨trivial, trivial⟩

/-- `{"a":[1,true]}`. -/
theorem converted_whole_array :
    let text : Bytes := [123, 34, 97, 34, 58, 91, 49, 44, 116, 114, 117, 101, 93, 125]
    let members : List (Option Bytes × JsonObject) :=
      [(some [97], .array [.int 1, .boolean true])]
    ∃ file document, convertJsonBufferToHrbl (.succeeding fun _ => 0) (tokenerOf text members)
        ⟨true, some text, true, true, true⟩ none = some (true, some file, none) ∧
      MembersMean members document ∧ ReadsAs (fun _ => 0) file document := by
  intro text members
  have hpresents : (tokenerOf text members).Presents :=
    tokenerOf_presents ⟨by decide, ⟨⟨by decide, by decide⟩, trivial, trivial⟩, trivial⟩
      ⟨⟨by decide, trivial, trivial, trivial⟩, trivial⟩
  have hsome : (convertJsonBufferToHrbl (.succeeding fun _ => 0) (tokenerOf text members)
      ⟨true, some text, true, true, true⟩ none).map
        (fun r => (r.1, r.2.1.isSome, r.2.2)) = some (true, true, none) := by decide +kernel
  obtain ⟨⟨success, output, sink⟩, hconvert, heq⟩ := Option.map_eq_some_iff.mp hsome
  obtain ⟨rfl, heq⟩ := Prod.mk.inj heq
  obtain ⟨hout, rfl⟩ := Prod.mk.inj heq
  obtain ⟨file, rfl⟩ := Option.isSome_iff_exists.mp hout
  obtain ⟨-, hwhole⟩ := converted_whole hpresents hconvert
  obtain ⟨text', members', document, htext, hparses, hmean, hreads, -⟩ := hwhole file rfl
  cases htext
  cases hparses.root.symm.trans (tokenerOf_parses (by decide) members).root
  exact ⟨file, document, hconvert, hmean, hreads⟩

/-! ## From JSON to JSON -/

end Hrbl
