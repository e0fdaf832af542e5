import Hrbl.Format
import Hrbl.Document

/-!
# The writer

`bc_hrbl_writer.c`: the construction calls over the linked nodes of
`bc_hrbl_writer_internal.h`. The arena is the list of the nodes allocated so far and a
pointer to one is its index, so that a pointer stays good when the arena grows.
-/

namespace Hrbl

open Lib

/-! ## The environment -/

/-- One store of a scatter worker: `destination[position] = entry`. -/
abbrev ScatterWrite := Nat × Entry

/-- What the library is linked to. The answers of the allocators and of
`pthread_create` are indexed by the number of the call, and `interleave` is the
order in which the stores of threads that run at once reach memory. -/
structure Env where
  hash64 : Bytes → UInt64
  arenaAllocates : Nat → Bool
  poolAllocates : Nat → Bool
  threadCreates : Nat → Bool
  interleave : Nat → List (List ScatterWrite) → List ScatterWrite
  interleave_perm : ∀ i workers, (interleave i workers).Perm workers.flatten

/-- Every allocation and every thread creation succeeds. -/
structure Env.Succeeds (env : Env) : Prop where
  arena : ∀ i, env.arenaAllocates i = true
  pool : ∀ i, env.poolAllocates i = true
  thread : ∀ i, env.threadCreates i = true

/-- An environment that refuses nothing and runs threads one after the other. -/
def Env.succeeding (hash64 : Bytes → UInt64) : Env where
  hash64
  arenaAllocates _ := true
  poolAllocates _ := true
  threadCreates _ := true
  interleave _ workers := workers.flatten
  interleave_perm _ _ := .refl _

theorem Env.succeeding_succeeds (hash64 : Bytes → UInt64) :
    (Env.succeeding hash64).Succeeds := ⟨fun _ => rfl, fun _ => rfl, fun _ => rfl⟩

/-- One that refuses one pool allocation, the one made in this turn. -/
def Env.refusing (hash64 : Bytes → UInt64) (turn : Nat) : Env :=
  { Env.succeeding hash64 with poolAllocates := fun i => i ≠ turn }

/-! ## State -/

abbrev NodeId := Nat

/-- `BC_HRBL_WRITER_POOL_OFFSET_NONE` and `BC_HRBL_WRITER_STRING_OFFSET_NONE`. -/
abbrev poolOffsetNone : UInt32 := 0xFFFFFFFF

/-- `struct bc_hrbl_writer_node`, with the members of the union side by side. -/
structure Node where
  kind : Kind
  keyLength : UInt32
  keyData : Option Bytes
  keyHash64 : UInt64
  cachedKeyPoolOffset : UInt32
  cachedStringPoolOffset : UInt32
  childCount : UInt32
  parent : Option NodeId
  firstChild : Option NodeId
  lastChild : Option NodeId
  nextSibling : Option NodeId
  int64Value : Int64
  uint64Value : UInt64
  float64Value : UInt64
  stringData : Option Bytes
  stringLength : UInt32
deriving Repr, DecidableEq

/-- `sizeof(bc_hrbl_writer_node_t)`. -/
abbrev nodeSize : Nat := 88

/-- `bc_hrbl_writer_error_t`. -/
inductive WriterError where
  | ok
  | oom
  | unclosedScope
  | construction
  | stringLengthOverflow4GB
  | stringPoolOverflow4GB
  | fileSizeOverflow4GB
  | invalidArgument
  | internal
deriving Repr, DecidableEq

/-- `bc_hrbl_writer_options_t`. No code reads `deduplicate_strings`. -/
structure WriterOptions where
  workerCount : UInt64
  deduplicateStrings : Bool
deriving Repr, DecidableEq

/-- How many calls the pool allocator and `pthread_create` have had. -/
structure Calls where
  pool : Nat
  thread : Nat
deriving Repr, DecidableEq, Inhabited

/-- `struct bc_hrbl_writer`, with its arena: the nodes, the bytes handed out, and the
number of its calls. -/
structure Writer where
  nodes : List Node
  arenaUsed : Nat
  arenaCalls : Nat
  calls : Calls
  options : WriterOptions
  rootFirst : Option NodeId
  rootLast : Option NodeId
  rootCount : UInt32
  currentScope : Option NodeId
  errorFlag : Bool
  lastError : WriterError
deriving Repr, DecidableEq

/-- `bc_hrbl_writer_create` when its two allocations succeed. -/
def Writer.create (options : Option WriterOptions) : Writer where
  nodes := []
  arenaUsed := 0
  arenaCalls := 0
  calls := { pool := 0, thread := 0 }
  options := options.getD { workerCount := 0, deduplicateStrings := true }
  rootFirst := none
  rootLast := none
  rootCount := 0
  currentScope := none
  errorFlag := false
  lastError := .ok

/-! ## Memory

A call is an `Option`: `none` is a null or dangling pointer dereferenced. -/

/-- `bc_allocators_arena_allocate`. What is handed out stays allocated, so all of it
together fits into the address space. -/
def arenaAllocate (env : Env) (w : Writer) (size : Nat) : Bool × Writer :=
  let w' := { w with arenaCalls := w.arenaCalls + 1 }
  if env.arenaAllocates w.arenaCalls ∧ w.arenaUsed + size < 2 ^ 63 then
    (true, { w' with arenaUsed := w.arenaUsed + size })
  else (false, w')

/-- `*pointer`. -/
def Writer.deref (w : Writer) (pointer : Option NodeId) : Option Node := do
  let id ← pointer
  w.nodes[id]?

/-- A store to fields of `*pointer`. -/
def Writer.store (w : Writer) (pointer : Option NodeId) (f : Node → Node) : Option Writer :=
  match pointer with
  | none => none
  | some id => if id < w.nodes.length then some { w with nodes := w.nodes.modify id f } else none

/-- `bc_hrbl_writer_arena_clone`: the copy, a null pointer when it is empty. -/
def arenaClone (env : Env) (w : Writer) (data : Bytes) : Bool × Option Bytes × Writer :=
  if data.length = 0 then (true, none, w)
  else
    let (allocated, w) := arenaAllocate env w data.length
    if allocated then (true, some data, w) else (false, none, w)

/-- A zeroed node. `BC_HRBL_KIND_NULL` is zero. -/
def Node.zero : Node where
  kind := .null
  keyLength := 0
  keyData := none
  keyHash64 := 0
  cachedKeyPoolOffset := poolOffsetNone
  cachedStringPoolOffset := poolOffsetNone
  childCount := 0
  parent := none
  firstChild := none
  lastChild := none
  nextSibling := none
  int64Value := 0
  uint64Value := 0
  float64Value := 0
  stringData := none
  stringLength := 0

/-- `bc_hrbl_writer_alloc_node`. -/
def allocNode (env : Env) (w : Writer) : Option NodeId × Writer :=
  let (allocated, w) := arenaAllocate env w nodeSize
  if allocated then (some w.nodes.length, { w with nodes := w.nodes ++ [Node.zero] })
  else (none, { w with errorFlag := true })

/-- The bytes a key argument points at; `none` for a null pointer with a length. -/
def KeyArg.bytes : KeyArg → Option Bytes
  | .null length => if length ≠ 0 then none else some []
  | .data bytes => some bytes

/-- `bc_hrbl_writer_set_key`. -/
def setKey (env : Env) (w : Writer) (node : NodeId) (key : KeyArg) : Option (Bool × Writer) :=
  match key.bytes with
  | none => some (false, w)
  | some bytes =>
    if bytes.length > lengthMax then some (false, w)
    else
      match arenaClone env w bytes with
      | (false, _, w) => some (false, w)
      | (true, clone, w) => do
        let w ← w.store (some node) fun n =>
          { n with
            keyData := clone
            keyLength := UInt32.ofNat bytes.length
            keyHash64 := env.hash64 bytes }
        return (true, w)

/-- `bc_hrbl_writer_append_to_scope`. -/
def appendToScope (w : Writer) (node : NodeId) : Option Writer :=
  match w.currentScope with
  | none => do
    let w ← w.store (some node) fun n => { n with parent := none }
    let w ← match w.rootFirst with
      | none => some { w with rootFirst := some node }
      | some _ => w.store w.rootLast fun n => { n with nextSibling := some node }
    return { w with rootLast := some node, rootCount := w.rootCount + 1 }
  | some scope => do
    let w ← w.store (some node) fun n => { n with parent := some scope }
    let scopeNode ← w.deref (some scope)
    let w ← match scopeNode.firstChild with
      | none => w.store (some scope) fun n => { n with firstChild := some node }
      | some _ => w.store scopeNode.lastChild fun n => { n with nextSibling := some node }
    w.store (some scope) fun n =>
      { n with lastChild := some node, childCount := n.childCount + 1 }

/-- `bc_hrbl_writer_expect_keyed_scope`. -/
def expectKeyedScope (w : Writer) : Option Bool :=
  match w.currentScope with
  | none => some true
  | some scope => do
    let node ← w.deref (some scope)
    return node.kind = .block

/-- `bc_hrbl_writer_expect_indexed_scope`. -/
def expectIndexedScope (w : Writer) : Option Bool :=
  match w.currentScope with
  | none => some false
  | some scope => do
    let node ← w.deref (some scope)
    return node.kind = .array

/-! ## Leaves -/

/-- The error flag set, and `false` returned. -/
def Writer.reject (w : Writer) : Option (Bool × Writer) :=
  some (false, { w with errorFlag := true })

/-- `bc_hrbl_writer_add_leaf`; the key is there when `require_key` is. -/
def addLeaf (env : Env) (w : Writer) (key : Option KeyArg) (kind : Kind) :
    Option (Bool × Writer) :=
  if w.errorFlag then some (false, w)
  else do
    let expected ← (if key.isSome then expectKeyedScope w else expectIndexedScope w)
    if !expected then w.reject
    else
      match allocNode env w with
      | (none, w) => some (false, w)
      | (some node, w) => do
        let w ← w.store (some node) fun n => { n with kind }
        match key with
        | none => do
          let w ← appendToScope w node
          return (true, w)
        | some key => do
          let (stored, w) ← setKey env w node key
          if !stored then w.reject
          else do
            let w ← appendToScope w node
            return (true, w)

/-- The node `add_leaf` has just put at the end of the current scope. -/
def Writer.lastAdded (w : Writer) : Option (Option NodeId) :=
  match w.currentScope with
  | none => some w.rootLast
  | some scope => do
    let node ← w.deref (some scope)
    return node.lastChild

/-- The shape of the functions that add a leaf and then store its payload. -/
def addLeafWith (env : Env) (w : Writer) (key : Option KeyArg) (kind : Kind)
    (payload : Node → Node) : Option (Bool × Writer) := do
  let (added, w) ← addLeaf env w key kind
  if !added then return (false, w)
  else do
    let last ← w.lastAdded
    let w ← w.store last payload
    return (true, w)

/-- The shape of the two functions that add a string. -/
def addString (env : Env) (w : Writer) (key : Option KeyArg) (value : Bytes) :
    Option (Bool × Writer) :=
  if value.length > lengthMax then w.reject
  else do
    let (added, w) ← addLeaf env w key .string
    if !added then return (false, w)
    else do
      let last ← w.lastAdded
      match arenaClone env w value with
      | (false, _, w) => w.reject
      | (true, clone, w) => do
        let w ← w.store last fun n =>
          { n with stringData := clone, stringLength := UInt32.ofNat value.length }
        return (true, w)

/-- `bc_hrbl_writer_set_null`. -/
def setNull (env : Env) (w : Writer) (key : KeyArg) : Option (Bool × Writer) :=
  addLeaf env w (some key) .null

/-- `bc_hrbl_writer_set_bool`. -/
def setBool (env : Env) (w : Writer) (key : KeyArg) (value : Bool) : Option (Bool × Writer) :=
  addLeaf env w (some key) (if value then .true else .false)

/-- `bc_hrbl_writer_set_int64`. -/
def setInt64 (env : Env) (w : Writer) (key : KeyArg) (value : Int64) : Option (Bool × Writer) :=
  addLeafWith env w (some key) .int64 fun n => { n with int64Value := value }

/-- `bc_hrbl_writer_set_uint64`. -/
def setUint64 (env : Env) (w : Writer) (key : KeyArg) (value : UInt64) :
    Option (Bool × Writer) :=
  addLeafWith env w (some key) .uint64 fun n => { n with uint64Value := value }

/-- `bc_hrbl_writer_set_float64`. -/
def setFloat64 (env : Env) (w : Writer) (key : KeyArg) (bits : UInt64) :
    Option (Bool × Writer) :=
  addLeafWith env w (some key) .float64 fun n => { n with float64Value := bits }

/-- `bc_hrbl_writer_set_string`. -/
def setString (env : Env) (w : Writer) (key : KeyArg) (value : Bytes) :
    Option (Bool × Writer) :=
  addString env w (some key) value

/-- `bc_hrbl_writer_append_null`. -/
def appendNull (env : Env) (w : Writer) : Option (Bool × Writer) :=
  addLeaf env w none .null

/-- `bc_hrbl_writer_append_bool`. -/
def appendBool (env : Env) (w : Writer) (value : Bool) : Option (Bool × Writer) :=
  addLeaf env w none (if value then .true else .false)

/-- `bc_hrbl_writer_append_int64`. -/
def appendInt64 (env : Env) (w : Writer) (value : Int64) : Option (Bool × Writer) :=
  addLeafWith env w none .int64 fun n => { n with int64Value := value }

/-- `bc_hrbl_writer_append_uint64`. -/
def appendUint64 (env : Env) (w : Writer) (value : UInt64) : Option (Bool × Writer) :=
  addLeafWith env w none .uint64 fun n => { n with uint64Value := value }

/-- `bc_hrbl_writer_append_float64`. -/
def appendFloat64 (env : Env) (w : Writer) (bits : UInt64) : Option (Bool × Writer) :=
  addLeafWith env w none .float64 fun n => { n with float64Value := bits }

/-- `bc_hrbl_writer_append_string`. -/
def appendString (env : Env) (w : Writer) (value : Bytes) : Option (Bool × Writer) :=
  addString env w none value

/-! ## Containers -/

/-- `bc_hrbl_writer_begin_container`. -/
def beginContainer (env : Env) (w : Writer) (key : KeyArg) (kind : Kind) :
    Option (Bool × Writer) :=
  if w.errorFlag then some (false, w)
  else do
    let inArray ← expectIndexedScope w
    let keyed ← expectKeyedScope w
    -- in an array a key may not even be an empty one; elsewhere a null key is the empty one
    if inArray ∧ key ≠ .null 0 then w.reject
    else if keyed ∧ key.bytes = none then w.reject
    else
      match allocNode env w with
      | (none, w) => some (false, w)
      | (some node, w) => do
        let w ← w.store (some node) fun n => { n with kind }
        match keyed, key with
        | true, .data bytes => do
          let (stored, w) ← setKey env w node (.data bytes)
          if !stored then w.reject
          else do
            let w ← appendToScope w node
            return (true, { w with currentScope := some node })
        | _, _ => do
          let w ← appendToScope w node
          return (true, { w with currentScope := some node })

/-- `bc_hrbl_writer_end_container`. -/
def endContainer (w : Writer) (expectedKind : Kind) : Option (Bool × Writer) :=
  if w.errorFlag then some (false, w)
  else
    match w.currentScope with
    | none => w.reject
    | some scope => do
      let node ← w.deref (some scope)
      if node.kind ≠ expectedKind then w.reject
      else some (true, { w with currentScope := node.parent })

/-- `bc_hrbl_writer_begin_block`. -/
def beginBlock (env : Env) (w : Writer) (key : KeyArg) : Option (Bool × Writer) :=
  beginContainer env w key .block

/-- `bc_hrbl_writer_end_block`. -/
def endBlock (w : Writer) : Option (Bool × Writer) := endContainer w .block

/-- `bc_hrbl_writer_begin_array`. -/
def beginArray (env : Env) (w : Writer) (key : KeyArg) : Option (Bool × Writer) :=
  beginContainer env w key .array

/-- `bc_hrbl_writer_end_array`. -/
def endArray (w : Writer) : Option (Bool × Writer) := endContainer w .array

/-! ## Runs -/

/-- One construction call. -/
def Writer.step (env : Env) (w : Writer) : Op → Option (Bool × Writer)
  | .setNull key => setNull env w key
  | .setBool key value => setBool env w key value
  | .setInt64 key value => setInt64 env w key value
  | .setUint64 key value => setUint64 env w key value
  | .setFloat64 key bits => setFloat64 env w key bits
  | .setString key value => setString env w key value
  | .beginBlock key => beginBlock env w key
  | .endBlock => endBlock w
  | .beginArray key => beginArray env w key
  | .endArray => endArray w
  | .appendNull => appendNull env w
  | .appendBool value => appendBool env w value
  | .appendInt64 value => appendInt64 env w value
  | .appendUint64 value => appendUint64 env w value
  | .appendFloat64 bits => appendFloat64 env w bits
  | .appendString value => appendString env w value

/-- A run of calls of which every one returns `true`. -/
def Writer.runs (env : Env) (w : Writer) : List Op → Option Writer
  | [] => some w
  | op :: ops =>
    match w.step env op with
    | some (true, w') => w'.runs env ops
    | _ => none

end Hrbl
