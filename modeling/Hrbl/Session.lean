import Hrbl.Finalize

/-!
# The calls on a writer

Construction calls and both finalize functions of `bc_hrbl_writer.c`, in any order on one
writer. Every call comes with the environment it runs in, so that an allocation may fail in
one call and succeed in the next. Two laws hold of whole runs: after a rejected construction
call nothing happens any more, and `last_error` is a matter of the finalize calls alone.
-/

namespace Hrbl

open Lib

/-! ## Files -/

/-- How a call of `write` ends; `interrupted` is a failure with `EINTR`. -/
inductive WriteResult where
  | wrote (count : Nat)
  | interrupted
  | failed
deriving Repr, DecidableEq

/-- What the system answers to `open`, to each `write` and to `close`. -/
structure FileCalls where
  opens : Bool
  writes : List WriteResult
  closes : Bool
deriving Repr, DecidableEq

/-- A call for the file fails. -/
def FileCalls.Fails (file : FileCalls) : Prop :=
  file.opens = false ∨ .failed ∈ file.writes ∨ file.closes = false

/-- The loop over `write` with so many bytes written: whether all of them get written, and
what the file holds then. `none`: these are not the answers to the calls that it makes. -/
def writeAll (buffer : Bytes) : List WriteResult → Nat → Option (Bool × Bytes)
  | [], written => if written < buffer.length then none else some (true, buffer.take written)
  | result :: results, written =>
    if written < buffer.length then
      match result with
      | .wrote count => writeAll buffer results (min (written + count) buffer.length)
      | .interrupted => writeAll buffer results written
      | .failed => some (false, buffer.take written)
    else none

/-- The part of `finalize_to_file` that has a buffer: whether it returns `true`, and what
the file holds if it was opened. -/
def storeFile (buffer : Bytes) (file : FileCalls) : Option (Bool × Option Bytes) :=
  if !file.opens then some (false, none)
  else
    match writeAll buffer file.writes 0 with
    | none => none
    | some (false, contents) => some (false, some contents)
    | some (true, contents) => some (file.closes, some contents)

/-- The loop gets to the end when no `write` fails. -/
theorem writeAll_iff {buffer contents : Bytes} {results : List WriteResult} {written : Nat}
    {done : Bool} (h : writeAll buffer results written = some (done, contents)) :
    done = true ↔ .failed ∉ results := by
  fun_induction writeAll buffer results written with
  | case1 => cases h
  | case2 =>
    cases h
    simp
  | case3 written results hlt count ih => simpa using ih h
  | case4 written results hlt ih => simpa using ih h
  | case5 =>
    cases h
    simp
  | case6 => cases h

/-- At the end the file is the buffer. -/
theorem writeAll_contents {buffer contents : Bytes} {results : List WriteResult} {written : Nat}
    (h : writeAll buffer results written = some (true, contents)) : contents = buffer := by
  fun_induction writeAll buffer results written with
  | case1 => cases h
  | case2 written hge =>
    cases h
    exact List.take_of_length_le (Nat.not_lt.mp hge)
  | case3 written results hlt count ih => exact ih h
  | case4 written results hlt ih => exact ih h
  | case5 => cases h
  | case6 => cases h

/-- A file is stored whole exactly when none of its calls fails. -/
theorem storeFile_iff {buffer : Bytes} {file : FileCalls} {done : Bool} {contents : Option Bytes}
    (h : storeFile buffer file = some (done, contents)) : done = true ↔ ¬file.Fails := by
  unfold storeFile at h
  unfold FileCalls.Fails
  cases hopens : file.opens with
  | false =>
    rw [hopens] at h
    cases h
    simp
  | true =>
    rw [hopens] at h
    simp only [Bool.not_true, Bool.false_eq_true, if_false] at h
    split at h
    · cases h
    · rename_i hwrites
      cases h
      have hfailed := writeAll_iff hwrites
      simp only [Bool.false_eq_true, false_iff, not_not] at hfailed
      simp [hfailed]
    · rename_i hwrites
      cases h
      have hfailed := (writeAll_iff hwrites).mp rfl
      simp [hfailed]

/-- When `finalize_to_file` has stored a file, it holds the buffer. -/
theorem storeFile_contents {buffer : Bytes} {file : FileCalls} {contents : Option Bytes}
    (h : storeFile buffer file = some (true, contents)) : contents = some buffer := by
  unfold storeFile at h
  split at h
  · cases h
  · split at h
    · cases h
    · cases h
    · rename_i hwrites
      obtain ⟨-, rfl⟩ := Prod.mk.inj (Option.some.inj h)
      rw [writeAll_contents hwrites]

/-! ## Calls -/

/-- A call on a writer; `finalizeToFile` with what the system answers. -/
inductive Call where
  | op (op : Op)
  | finalizeToBuffer
  | finalizeToFile (file : FileCalls)
deriving Repr, DecidableEq

def Call.isFinalize : Call → Bool
  | .op _ => false
  | .finalizeToBuffer => true
  | .finalizeToFile _ => true

/-- What a call leaves its caller with: the value returned, `*out_buffer` and `*out_size`,
the output file, and what `last_error` returns next. -/
structure Answer where
  success : Bool
  buffer : Option Bytes
  size : Nat
  file : Option Bytes
  lastError : WriterError
deriving Repr, DecidableEq

/-- An answer without a result. -/
def Answer.plain (success : Bool) (lastError : WriterError) : Answer :=
  { success, buffer := none, size := 0, file := none, lastError }

/-- `bc_hrbl_writer_finalize_to_file`, with what the file holds if it was opened. -/
def finalizeToFile (env : Env) (w : Writer) (file : FileCalls) :
    Option (Bool × Option Bytes × Writer) :=
  match finalizeToBuffer env w with
  | .returned buffer w => (storeFile buffer file).map fun (done, contents) => (done, contents, w)
  | .refused w => some (false, none, w)
  | .faulted | .divergent => none

/-- One call. `none`: it does not return, or the system does not answer so. -/
def Writer.call (env : Env) (w : Writer) : Call → Option (Answer × Writer)
  | .op op => (w.step env op).map fun (success, w) => (Answer.plain success w.lastError, w)
  | .finalizeToBuffer =>
    match finalizeToBuffer env w with
    | .returned buffer w => some ({
        success := true
        buffer := some buffer
        size := buffer.length
        file := none
        lastError := w.lastError }, w)
    | .refused w => some (Answer.plain false w.lastError, w)
    | .faulted | .divergent => none
  | .finalizeToFile file =>
    (finalizeToFile env w file).map fun (success, contents, w) =>
      ({ Answer.plain success w.lastError with file := contents }, w)

/-- A run of calls. -/
def Writer.perform (w : Writer) : List (Env × Call) → Option (List Answer × Writer)
  | [] => some ([], w)
  | (env, c) :: calls =>
    match w.call env c with
    | none => none
    | some (answer, w) => (w.perform calls).map fun (answers, w) => (answer :: answers, w)

/-! ## After a rejection -/

/-- If the call returns `false`, the error flag is set from then on. -/
def FlagsRejection (result : Option (Bool × Writer)) : Prop :=
  ∀ w, result = some (false, w) → w.errorFlag = true

namespace FlagsRejection

theorem accepted (w : Writer) : FlagsRejection (some (true, w)) := by
  intro w' h
  cases h

theorem refused {w : Writer} (hflag : w.errorFlag = true) : FlagsRejection (some (false, w)) := by
  intro w' h
  cases h
  exact hflag

theorem reject (w : Writer) : FlagsRejection w.reject := refused rfl

theorem bind {α : Type} {m : Option α} {f : α → Option (Bool × Writer)}
    (hf : ∀ a, m = some a → FlagsRejection (f a)) : FlagsRejection (m >>= f) := by
  intro w h
  obtain ⟨a, ha, hfa⟩ := Option.bind_eq_some_iff.mp h
  exact hf a ha w hfa

end FlagsRejection

section

variable (env : Env) (w : Writer)

theorem allocNode_flag {w' : Writer} (h : allocNode env w = (none, w')) :
    w'.errorFlag = true := by
  unfold allocNode at h
  generalize arenaAllocate env w nodeSize = r at h
  obtain ⟨allocated, w₁⟩ := r
  cases allocated with
  | true => cases h
  | false =>
    cases h
    rfl

theorem addLeaf_flags (key : Option KeyArg) (kind : Kind) :
    FlagsRejection (addLeaf env w key kind) := by
  unfold addLeaf
  split
  · rename_i hflag
    exact .refused hflag
  refine .bind fun expected _ => ?_
  split
  · exact .reject w
  split
  · rename_i hnone
    exact .refused (allocNode_flag env w hnone)
  refine .bind fun w₁ _ => ?_
  split
  · exact .bind fun w₂ _ => .accepted w₂
  refine .bind fun (stored, w₂) _ => ?_
  cases stored with
  | false => exact .reject w₂
  | true => exact .bind fun w₃ _ => .accepted w₃

theorem addLeafWith_flags (key : Option KeyArg) (kind : Kind) (payload : Node → Node) :
    FlagsRejection (addLeafWith env w key kind payload) := by
  unfold addLeafWith
  refine .bind fun (added, w₁) hadded => ?_
  cases added with
  | false => exact .refused (addLeaf_flags env w key kind w₁ hadded)
  | true => exact .bind fun last _ => .bind fun w₂ _ => .accepted w₂

theorem addString_flags (key : Option KeyArg) (value : Bytes) :
    FlagsRejection (addString env w key value) := by
  unfold addString
  split
  · exact .reject w
  refine .bind fun (added, w₁) hadded => ?_
  cases added with
  | false => exact .refused (addLeaf_flags env w key .string w₁ hadded)
  | true =>
    refine .bind fun last _ => ?_
    split
    · exact .reject _
    · exact .bind fun w₂ _ => .accepted w₂

theorem beginContainer_flags (key : KeyArg) (kind : Kind) :
    FlagsRejection (beginContainer env w key kind) := by
  unfold beginContainer
  split
  · rename_i hflag
    exact .refused hflag
  refine .bind fun inArray _ => .bind fun keyed _ => ?_
  split
  · exact .reject w
  split
  · exact .reject w
  split
  · rename_i hnone
    exact .refused (allocNode_flag env w hnone)
  refine .bind fun w₁ _ => ?_
  split
  · refine .bind fun (stored, w₂) _ => ?_
    cases stored with
    | false => exact .reject w₂
    | true => exact .bind fun w₃ _ => .accepted _
  · exact .bind fun w₂ _ => .accepted _

theorem endContainer_flags (kind : Kind) : FlagsRejection (endContainer w kind) := by
  unfold endContainer
  split
  · rename_i hflag
    exact .refused hflag
  split
  · exact .reject w
  refine .bind fun node _ => ?_
  split
  · exact .reject w
  · exact .accepted _

/-- A construction call that returns `false` has set the error flag, wherever it failed. -/
theorem step_flags (op : Op) : FlagsRejection (w.step env op) := by
  cases op with
  | setNull key => exact addLeaf_flags env w _ _
  | setBool key value => exact addLeaf_flags env w _ _
  | setInt64 key value => exact addLeafWith_flags env w _ _ _
  | setUint64 key value => exact addLeafWith_flags env w _ _ _
  | setFloat64 key bits => exact addLeafWith_flags env w _ _ _
  | setString key value => exact addString_flags env w _ _
  | beginBlock key => exact beginContainer_flags env w _ _
  | endBlock => exact endContainer_flags w _
  | beginArray key => exact beginContainer_flags env w _ _
  | endArray => exact endContainer_flags w _
  | appendNull => exact addLeaf_flags env w _ _
  | appendBool value => exact addLeaf_flags env w _ _
  | appendInt64 value => exact addLeafWith_flags env w _ _ _
  | appendUint64 value => exact addLeafWith_flags env w _ _ _
  | appendFloat64 bits => exact addLeafWith_flags env w _ _ _
  | appendString value => exact addString_flags env w _ _

variable {w} (hflag : w.errorFlag = true)

include hflag

theorem addLeaf_flagged (key : Option KeyArg) (kind : Kind) :
    addLeaf env w key kind = some (false, w) := if_pos hflag

theorem addString_flagged (key : Option KeyArg) (value : Bytes) :
    addString env w key value = some (false, w) := by
  unfold addString
  split
  · obtain ⟨_, _, _, _, _, _, _, _, _, _, _⟩ := w
    cases hflag
    rfl
  · rw [addLeaf_flagged env hflag]
    rfl

theorem addLeafWith_flagged (key : Option KeyArg) (kind : Kind) (payload : Node → Node) :
    addLeafWith env w key kind payload = some (false, w) := by
  unfold addLeafWith
  rw [addLeaf_flagged env hflag]
  rfl

/-- With the error flag set, a construction call returns `false` and does nothing. -/
theorem step_flagged (op : Op) : w.step env op = some (false, w) := by
  cases op with
  | setNull key => exact addLeaf_flagged env hflag _ _
  | setBool key value => exact addLeaf_flagged env hflag _ _
  | setInt64 key value => exact addLeafWith_flagged env hflag _ _ _
  | setUint64 key value => exact addLeafWith_flagged env hflag _ _ _
  | setFloat64 key bits => exact addLeafWith_flagged env hflag _ _ _
  | setString key value => exact addString_flagged env hflag _ _
  | beginBlock key => exact if_pos hflag
  | endBlock => exact if_pos hflag
  | beginArray key => exact if_pos hflag
  | endArray => exact if_pos hflag
  | appendNull => exact addLeaf_flagged env hflag _ _
  | appendBool value => exact addLeaf_flagged env hflag _ _
  | appendInt64 value => exact addLeafWith_flagged env hflag _ _ _
  | appendUint64 value => exact addLeafWith_flagged env hflag _ _ _
  | appendFloat64 bits => exact addLeafWith_flagged env hflag _ _ _
  | appendString value => exact addString_flagged env hflag _ _

/-- With the error flag set, a finalize call does nothing but tell so. -/
theorem finalizeToBuffer_flagged :
    finalizeToBuffer env w = .refused { w with lastError := .construction } := if_pos hflag

end

/-- A call that comes after a rejected one: nothing is returned, and a finalize call leaves
`CONSTRUCTION` as the last error. -/
structure Stopped (c : Call) (a : Answer) : Prop where
  success : a.success = false
  buffer : a.buffer = none
  size : a.size = 0
  file : a.file = none
  lastError : c.isFinalize = true → a.lastError = .construction

theorem call_flagged (env : Env) {w : Writer} (hflag : w.errorFlag = true) (c : Call) :
    ∃ a w', w.call env c = some (a, w') ∧ Stopped c a ∧
      w' = { w with lastError := w'.lastError } := by
  cases c with
  | op op =>
    refine ⟨.plain false w.lastError, w, ?_, ⟨rfl, rfl, rfl, rfl, nofun⟩, rfl⟩
    rw [Writer.call, step_flagged env hflag]
    rfl
  | finalizeToBuffer =>
    refine ⟨.plain false .construction, { w with lastError := .construction }, ?_,
      ⟨rfl, rfl, rfl, rfl, fun _ => rfl⟩, rfl⟩
    rw [Writer.call, finalizeToBuffer_flagged env hflag]
  | finalizeToFile file =>
    refine ⟨.plain false .construction, { w with lastError := .construction }, ?_,
      ⟨rfl, rfl, rfl, rfl, fun _ => rfl⟩, rfl⟩
    rw [Writer.call, finalizeToFile, finalizeToBuffer_flagged env hflag]
    rfl

theorem perform_flagged {w : Writer} (hflag : w.errorFlag = true) (calls : List (Env × Call)) :
    ∃ answers w', w.perform calls = some (answers, w') ∧
      List.Forall₂ (fun c a => Stopped c.2 a) calls answers ∧
      w' = { w with lastError := w'.lastError } := by
  induction calls generalizing w with
  | nil => exact ⟨[], w, rfl, .nil, rfl⟩
  | cons c calls ih =>
    obtain ⟨env, c⟩ := c
    obtain ⟨a, w₁, hcall, hstopped, hw₁⟩ := call_flagged env hflag c
    have hflag₁ : w₁.errorFlag = true := by
      rw [hw₁]
      exact hflag
    obtain ⟨answers, w₂, hrun, hall, hw₂⟩ := ih hflag₁
    refine ⟨a :: answers, w₂, ?_, .cons hstopped hall, ?_⟩
    · rw [Writer.perform, hcall]
      simp only [hrun, Option.map_some]
    · rw [hw₂, hw₁]

/-- Once a construction call has returned `false`, whatever the allocators did, every later
call returns, returns nothing and changes nothing but the last error. -/
theorem rejected_for_good {env : Env} {op : Op} {w w₁ : Writer} {a : Answer}
    (hcall : w.call env (.op op) = some (a, w₁)) (hfalse : a.success = false)
    (later : List (Env × Call)) :
    ∃ answers w₂, w₁.perform later = some (answers, w₂) ∧
      List.Forall₂ (fun c a => Stopped c.2 a) later answers ∧
      w₂ = { w₁ with lastError := w₂.lastError } := by
  rw [Writer.call, Option.map_eq_some_iff] at hcall
  obtain ⟨⟨success, w'⟩, hstep, heq⟩ := hcall
  cases heq
  have hflag : w₁.errorFlag = true := by
    cases hfalse
    exact step_flags env w op w₁ hstep
  exact perform_flagged hflag later

/-- A value and an open block, in which an array is ended that has not been begun. What comes after it
is a value, the end of the block, an array, and a file of either kind. -/
theorem rejected_for_good_end_array :
    let later : List (Env × Call) := [.op (.setString (.data [0x64]) [0x65]), .op .endBlock,
      .op (.beginArray (.data [0x66])), .finalizeToBuffer,
      .finalizeToFile ⟨true, [.wrote 9], true⟩].map fun c => (Env.succeeding fun _ => 0, c)
    ∃ w w₁, (Writer.create none).runs (.succeeding fun _ => 0) [.setInt64 (.data [0x61]) 1,
        .beginBlock (.data [0x62]), .setInt64 (.data [0x63]) 2] = some w ∧
      w.call (.succeeding fun _ => 0) (.op .endArray) = some (.plain false .ok, w₁) ∧
      ∃ answers w₂, w₁.perform later = some (answers, w₂) ∧
        List.Forall₂ (fun c a => Stopped c.2 a) later answers ∧
        w₂ = { w₁ with lastError := w₂.lastError } := by
  intro later
  obtain ⟨w, w₁, hruns, hcall⟩ : ∃ w w₁, (Writer.create none).runs (.succeeding fun _ => 0)
      [.setInt64 (.data [0x61]) 1, .beginBlock (.data [0x62]), .setInt64 (.data [0x63]) 2] =
        some w ∧
      w.call (.succeeding fun _ => 0) (.op .endArray) = some (.plain false .ok, w₁) :=
    ⟨_, _, rfl, rfl⟩
  exact ⟨w, w₁, hruns, hcall, rejected_for_good hcall rfl later⟩

/-! ## Settings -/

/-- What no construction call changes: the options and the last error. -/
def Writer.settings (w : Writer) : WriterOptions × WriterError := (w.options, w.lastError)

/-- Whatever the call returns, the settings are the same. -/
def KeepsSettings (w : Writer) (result : Option (Bool × Writer)) : Prop :=
  ∀ success w', result = some (success, w') → w'.settings = w.settings

namespace KeepsSettings

variable {w w₁ : Writer}

theorem result {success : Bool} (h : w₁.settings = w.settings) :
    KeepsSettings w (some (success, w₁)) := by
  intro _ _ heq
  cases heq
  exact h

theorem reject (h : w₁.settings = w.settings) : KeepsSettings w w₁.reject := result h

theorem bind {α : Type} {m : Option α} {f : α → Option (Bool × Writer)}
    (hf : ∀ a, m = some a → KeepsSettings w (f a)) : KeepsSettings w (m >>= f) := by
  intro success w' h
  obtain ⟨a, ha, hfa⟩ := Option.bind_eq_some_iff.mp h
  exact hf a ha success w' hfa

end KeepsSettings

theorem store_settings {w w' : Writer} {pointer : Option NodeId} {f : Node → Node}
    (h : w.store pointer f = some w') : w'.settings = w.settings := by
  unfold Writer.store at h
  split at h
  · cases h
  · split at h
    · cases h
      rfl
    · cases h

section

variable (env : Env) (w : Writer)

theorem arenaAllocate_settings (size : Nat) :
    (arenaAllocate env w size).2.settings = w.settings := by
  unfold arenaAllocate
  simp only
  split
  · rfl
  · rfl

theorem arenaClone_settings (data : Bytes) :
    (arenaClone env w data).2.2.settings = w.settings := by
  have hallocate := arenaAllocate_settings env w data.length
  unfold arenaClone
  split
  · rfl
  · simp only
    split
    · exact hallocate
    · exact hallocate

theorem allocNode_settings : (allocNode env w).2.settings = w.settings := by
  have hallocate := arenaAllocate_settings env w nodeSize
  unfold allocNode
  simp only
  split
  · exact hallocate
  · exact hallocate

theorem setKey_settings (node : NodeId) (key : KeyArg) :
    KeepsSettings w (setKey env w node key) := by
  unfold setKey
  split
  · exact .result rfl
  split
  · exact .result rfl
  rename_i bytes _ _
  have hclone := arenaClone_settings env w bytes
  split
  · rename_i heq
    rw [heq] at hclone
    exact .result hclone
  · rename_i heq
    rw [heq] at hclone
    exact .bind fun w₂ hstore => .result ((store_settings hstore).trans hclone)

variable {w} in
theorem appendToScope_settings {node : NodeId} {w' : Writer} (h : appendToScope w node = some w') :
    w'.settings = w.settings := by
  unfold appendToScope at h
  split at h
  · obtain ⟨w₁, hstore, h⟩ := Option.bind_eq_some_iff.mp h
    have hstored := store_settings hstore
    dsimp only at h
    split at h
    · cases h
      exact hstored
    · obtain ⟨w₂, hlink, h⟩ := Option.bind_eq_some_iff.mp h
      have hlinked := store_settings hlink
      cases h
      exact hlinked.trans hstored
  · obtain ⟨w₁, hstore, h⟩ := Option.bind_eq_some_iff.mp h
    obtain ⟨scopeNode, -, h⟩ := Option.bind_eq_some_iff.mp h
    dsimp only at h
    split at h
    · obtain ⟨w₂, hlink, h⟩ := Option.bind_eq_some_iff.mp h
      exact (store_settings h).trans ((store_settings hlink).trans (store_settings hstore))
    · obtain ⟨w₂, hlink, h⟩ := Option.bind_eq_some_iff.mp h
      exact (store_settings h).trans ((store_settings hlink).trans (store_settings hstore))

theorem addLeaf_settings (key : Option KeyArg) (kind : Kind) :
    KeepsSettings w (addLeaf env w key kind) := by
  unfold addLeaf
  split
  · exact .result rfl
  refine .bind fun expected _ => ?_
  split
  · exact .reject rfl
  have hnode := allocNode_settings env w
  split
  · rename_i heq
    rw [heq] at hnode
    exact .result hnode
  rename_i heq
  rw [heq] at hnode
  refine .bind fun w₁ hstore => ?_
  have hstored := (store_settings hstore).trans hnode
  split
  · exact .bind fun w₂ happend => .result ((appendToScope_settings happend).trans hstored)
  refine .bind fun (stored, w₂) hkey => ?_
  have hkeyed := (setKey_settings env w₁ _ _ stored w₂ hkey).trans hstored
  cases stored with
  | false => exact .reject hkeyed
  | true => exact .bind fun w₃ happend => .result ((appendToScope_settings happend).trans hkeyed)

theorem addLeafWith_settings (key : Option KeyArg) (kind : Kind) (payload : Node → Node) :
    KeepsSettings w (addLeafWith env w key kind payload) := by
  unfold addLeafWith
  refine .bind fun (added, w₁) hadd => ?_
  have hadded := addLeaf_settings env w key kind added w₁ hadd
  cases added with
  | false => exact .result hadded
  | true =>
    exact .bind fun last _ => .bind fun w₂ hstore => .result ((store_settings hstore).trans hadded)

theorem addString_settings (key : Option KeyArg) (value : Bytes) :
    KeepsSettings w (addString env w key value) := by
  unfold addString
  split
  · exact .reject rfl
  refine .bind fun (added, w₁) hadd => ?_
  have hadded := addLeaf_settings env w key .string added w₁ hadd
  cases added with
  | false => exact .result hadded
  | true =>
    refine .bind fun last _ => ?_
    have hclone := (arenaClone_settings env w₁ value).trans hadded
    split
    · rename_i heq
      rw [heq] at hclone
      exact .reject hclone
    · rename_i heq
      rw [heq] at hclone
      exact .bind fun w₂ hstore => .result ((store_settings hstore).trans hclone)

theorem beginContainer_settings (key : KeyArg) (kind : Kind) :
    KeepsSettings w (beginContainer env w key kind) := by
  unfold beginContainer
  split
  · exact .result rfl
  refine .bind fun inArray _ => .bind fun keyed _ => ?_
  split
  · exact .reject rfl
  split
  · exact .reject rfl
  have hnode := allocNode_settings env w
  split
  · rename_i heq
    rw [heq] at hnode
    exact .result hnode
  rename_i heq
  rw [heq] at hnode
  refine .bind fun w₁ hstore => ?_
  have hstored := (store_settings hstore).trans hnode
  split
  · refine .bind fun (stored, w₂) hkey => ?_
    have hkeyed := (setKey_settings env w₁ _ _ stored w₂ hkey).trans hstored
    cases stored with
    | false => exact .reject hkeyed
    | true => exact .bind fun w₃ happend => .result ((appendToScope_settings happend).trans hkeyed)
  · exact .bind fun w₂ happend => .result ((appendToScope_settings happend).trans hstored)

theorem endContainer_settings (kind : Kind) : KeepsSettings w (endContainer w kind) := by
  unfold endContainer
  split
  · exact .result rfl
  split
  · exact .reject rfl
  refine .bind fun node _ => ?_
  split
  · exact .reject rfl
  · exact .result rfl

/-- No construction call changes the options or the last error. -/
theorem step_settings (op : Op) : KeepsSettings w (w.step env op) := by
  cases op with
  | setNull key => exact addLeaf_settings env w _ _
  | setBool key value => exact addLeaf_settings env w _ _
  | setInt64 key value => exact addLeafWith_settings env w _ _ _
  | setUint64 key value => exact addLeafWith_settings env w _ _ _
  | setFloat64 key bits => exact addLeafWith_settings env w _ _ _
  | setString key value => exact addString_settings env w _ _
  | beginBlock key => exact beginContainer_settings env w _ _
  | endBlock => exact endContainer_settings w _
  | beginArray key => exact beginContainer_settings env w _ _
  | endArray => exact endContainer_settings w _
  | appendNull => exact addLeaf_settings env w _ _
  | appendBool value => exact addLeaf_settings env w _ _
  | appendInt64 value => exact addLeafWith_settings env w _ _ _
  | appendUint64 value => exact addLeafWith_settings env w _ _ _
  | appendFloat64 bits => exact addLeafWith_settings env w _ _ _
  | appendString value => exact addString_settings env w _ _

end

theorem runs_options {env : Env} {w w' : Writer} {ops : List Op} (h : w.runs env ops = some w') :
    w'.options = w.options := by
  induction ops generalizing w with
  | nil =>
    cases h
    rfl
  | cons op ops ih =>
    rw [Writer.runs] at h
    split at h
    · rename_i w₁ hstep
      have hkept := congrArg Prod.fst (step_settings env w op true w₁ hstep)
      exact (ih h).trans hkept
    · cases h

end Hrbl
