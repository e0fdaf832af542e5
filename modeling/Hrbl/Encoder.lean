import Hrbl.Pool
import Hrbl.Lib.Relocation

/-!
# The encoder

`bc_hrbl_writer_encoder.c` from the writer's nodes to a file: the strings of all nodes
go to the pool, the nodes are emitted depth first into a buffer, with offsets of strings
that are relative to the pool until the fixups make them absolute, and the parts are put
together. The recursion and the loops over siblings follow pointers, so both count turns
and give up on a structure that no arena of that size can hold.
-/

namespace Hrbl

open Lib

/-! ## Pointers -/

/-- `*pointer` of the encoder. -/
def derefNode (heap : List Node) (id : NodeId) : AllocM Node :=
  match heap[id]? with
  | some node => return node
  | none => throw .fault

/-- The bytes at a pointer with a length; a null pointer is an empty string. -/
def pointedBytes (data : Option Bytes) (length : UInt32) : AllocM Bytes :=
  match data with
  | none => return []
  | some bytes =>
    match fetch bytes 0 length.toNat with
    | some bytes => return bytes
    | none => throw .fault

/-- `for (child = first; child != NULL; child = child->next_sibling)`, for at most so many
turns. `deref` reads a node, and `diverges` is the failure of a loop without an end. -/
def forSiblings {ε σ : Type} (deref : σ → NodeId → EStateM ε Calls Node) (diverges : σ → ε)
    (body : NodeId → Node → σ → EStateM ε Calls σ) :
    Nat → Option NodeId → σ → EStateM ε Calls σ
  | _, none, s => return s
  | 0, some _, s => throw (diverges s)
  | turns + 1, some id, s => do
    let node ← deref s id
    let s ← body id node s
    let node ← deref s id
    forSiblings deref diverges body turns node.nextSibling s

/-- The loop over nodes that stay as they are. -/
abbrev forSiblingsIn {σ : Type} (heap : List Node) (body : NodeId → Node → σ → AllocM σ) :
    Nat → Option NodeId → σ → AllocM σ :=
  forSiblings (fun _ => derefNode heap) (fun _ => .diverges) body

/-- More turns than an arena has nodes. -/
def turnsOf (heap : List Node) : Nat := heap.length + 1

/-! ## Strings

A call that fails half way leaves the offsets it has stored, so a failure here comes with
the nodes. -/

/-- A computation that changes the nodes, with the nodes it leaves when it fails. -/
abbrev CollectM := EStateM (Failure × List Node) Calls

/-- A part that does not change the nodes. -/
def leaving {α : Type} (heap : List Node) (m : AllocM α) : CollectM α :=
  EStateM.adaptExcept (fun e => (e, heap)) m

/-- The part of `collect_strings` for the key of a node. -/
def collectKey (env : Env) (id : NodeId) (node : Node) (heap : List Node) (pool : Pool) :
    CollectM (List Node × Pool) :=
  match node.keyData with
  | none => return (heap, pool)
  | some _ => do
    let key ← leaving heap (pointedBytes node.keyData node.keyLength)
    let (pool, offset) ← leaving heap (internWithHash env pool key node.keyHash64)
    return (heap.modify id fun n => { n with cachedKeyPoolOffset := offset }, pool)

/-- The part of `collect_strings` for the value of a string node. -/
def collectValue (env : Env) (id : NodeId) (node : Node) (heap : List Node) (pool : Pool) :
    CollectM (List Node × Pool) :=
  if node.kind = .string then do
    let data ← leaving heap (pointedBytes node.stringData node.stringLength)
    let (pool, offset) ← leaving heap (intern env pool data)
    return (heap.modify id fun n => { n with cachedStringPoolOffset := offset }, pool)
  else return (heap, pool)

/-- What `collect_strings` does with the node it is given. -/
def collectOwn (env : Env) (id : NodeId) (node : Node) (heap : List Node) (pool : Pool) :
    CollectM (List Node × Pool) := do
  let (heap, pool) ← collectKey env id node heap pool
  collectValue env id node heap pool

/-- The loop over nodes that are collected. -/
abbrev forSiblingsCollecting
    (body : NodeId → Node → List Node × Pool → CollectM (List Node × Pool)) :
    Nat → Option NodeId → List Node × Pool → CollectM (List Node × Pool) :=
  forSiblings (fun s id => leaving s.1 (derefNode s.1 id)) (fun s => (.diverges, s.1)) body

/-- `bc_hrbl_encoder_collect_strings`, for nodes so many levels deep. -/
def collectStrings (env : Env) :
    Nat → NodeId → List Node × Pool → CollectM (List Node × Pool)
  | 0, _, (heap, _) => throw (.diverges, heap)
  | depth + 1, id, (heap, pool) => do
    let node ← leaving heap (derefNode heap id)
    let own ← collectOwn env id node heap pool
    forSiblingsCollecting (fun child _ s => collectStrings env depth child s) (turnsOf own.1)
      node.firstChild own

/-! ## Nodes -/

/-- A store into the buffer behind its data is lost unless it leaves the allocation. -/
def storeAt (b : EncoderBuffer) (offset : Nat) (bytes : Bytes) : AllocM EncoderBuffer :=
  if offset + bytes.length ≤ b.capacity then
    return { b with data := (overwrite b.data offset bytes).take b.data.length }
  else throw .fault

/-- The first lines of the emitting functions: padding, so that the body after the kind
byte is aligned, and the kind byte, with its offset. -/
def emitKind (env : Env) (nodes : EncoderBuffer) (kind : Kind) (bodyAlign : Nat) :
    AllocM (EncoderBuffer × Nat) := do
  let kindOffset := alignUpNat (nodes.data.length + 1) bodyAlign - 1
  let nodes ← (if kindOffset > nodes.data.length then
      bufferAppendZero env nodes (kindOffset - nodes.data.length)
    else return nodes)
  let nodes ← bufferAppend env nodes [kind.byte]
  return (nodes, kindOffset)

/-- The reference of a string node, and its fixup. -/
def emitStringRef (env : Env) (nodes : EncoderBuffer) (pool : Pool) (node : Node) :
    AllocM (EncoderBuffer × Pool) := do
  let data ← pointedBytes node.stringData node.stringLength
  let (pool, intra) ← (if node.cachedStringPoolOffset = poolOffsetNone then intern env pool data
    else return (pool, node.cachedStringPoolOffset))
  let refOffset := nodes.data.length
  let nodes ← bufferAppend env nodes (le32 intra ++ le32 (UInt32.ofNat data.length))
  let pool ← recordFixup env pool refOffset
  return (nodes, pool)

/-- The `switch` of `emit_scalar`. -/
def emitBody (env : Env) (nodes : EncoderBuffer) (pool : Pool) (node : Node) :
    AllocM (EncoderBuffer × Pool) :=
  match node.kind with
  | .null | .false | .true => return (nodes, pool)
  | .int64 => do
    let nodes ← bufferAppend env nodes (le64 node.int64Value.toUInt64)
    return (nodes, pool)
  | .uint64 => do
    let nodes ← bufferAppend env nodes (le64 node.uint64Value)
    return (nodes, pool)
  | .float64 => do
    let nodes ← bufferAppend env nodes (le64 node.float64Value)
    return (nodes, pool)
  | .string => emitStringRef env nodes pool node
  | .block | .array => throw (.error .internal)

/-- `bc_hrbl_encoder_emit_scalar`. -/
def emitScalar (env : Env) (base : UInt64) (nodes : EncoderBuffer) (pool : Pool) (node : Node) :
    AllocM (EncoderBuffer × Pool × UInt64) := do
  let (nodes, kindOffset) ← emitKind env nodes node.kind node.kind.bodyAlign
  let (nodes, pool) ← emitBody env nodes pool node
  return (nodes, pool, base + UInt64.ofNat kindOffset)

/-- How the children of a node are emitted. -/
abbrev EmitChild := NodeId → EncoderBuffer → Pool → AllocM (EncoderBuffer × Pool × UInt64)

/-- The hash of the key of a member: a node without a key has no hash. -/
def memberHash (env : Env) (child : Node) (key : Bytes) : UInt64 :=
  if child.keyData.isNone then env.hash64 key else child.keyHash64

/-- The key of a member of the root or of a block, as an entry without a value. -/
def emitKey (env : Env) (child : Node) (pool : Pool) : AllocM (Pool × Entry) := do
  let key ← pointedBytes child.keyData child.keyLength
  let (pool, keyPoolOffset) ← (if child.cachedKeyPoolOffset = poolOffsetNone then
      internWithHash env pool key (memberHash env child key)
    else return (pool, child.cachedKeyPoolOffset))
  return (pool, {
    keyHash64 := memberHash env child key
    keyPoolOffset := keyPoolOffset
    keyLength := UInt32.ofNat key.length
    valueOffset := 0 })

/-- The body of the loop over the members: the key, the value, and the entry for them. -/
def emitMember (env : Env) (emitChild : EmitChild) (id : NodeId) (child : Node)
    (nodes : EncoderBuffer) (pool : Pool) : AllocM (EncoderBuffer × Pool × Entry) := do
  let (pool, entry) ← emitKey env child pool
  let (nodes, pool, valueOffset) ← emitChild id nodes pool
  return (nodes, pool, { entry with valueOffset })

/-- The allocation of an array that is left out when the array is empty. -/
def allocateArray (env : Env) (count : UInt64) : AllocM Unit :=
  if count ≠ 0 then allocate env else return ()

/-- One turn of that loop: the entry goes to an array with room for `count` of them. -/
def memberTurn (env : Env) (emitChild : EmitChild) (count : Nat) (id : NodeId) (child : Node) :
    EncoderBuffer × Pool × List Entry → AllocM (EncoderBuffer × Pool × List Entry)
  | (nodes, pool, pending) => do
    let (nodes, pool, entry) ← emitMember env emitChild id child nodes pool
    if pending.length < count then return (nodes, pool, pending ++ [entry])
    else throw .fault

/-- The loop over the members, and the sort of the array, which is to be full by then. -/
def emitMembers (env : Env) (heap : List Node) (emitChild : EmitChild) (count : Nat)
    (first : Option NodeId) (nodes : EncoderBuffer) (pool : Pool) :
    AllocM (EncoderBuffer × Pool × List Entry) := do
  let (nodes, pool, pending) ← forSiblingsIn heap (memberTurn env emitChild count)
    (turnsOf heap) first (nodes, pool, [])
  if pending.length < count then throw .fault
  else do
    let sorted ← pendingSort env pending pool.workerCount
    return (nodes, pool, sorted)

/-- The loop that stores the sorted entries and records their fixups. -/
def storeEntries (env : Env) : List Entry → Nat → EncoderBuffer → Pool →
    AllocM (EncoderBuffer × Pool)
  | [], _, nodes, pool => return (nodes, pool)
  | entry :: entries, offset, nodes, pool => do
    let nodes ← storeAt nodes offset entry.encode
    let pool ← recordFixup env pool (offset + 8)
    storeEntries env entries (offset + 24) nodes pool

/-- `bc_hrbl_encoder_emit_block`. -/
def emitBlock (env : Env) (heap : List Node) (base : UInt64) (emitChild : EmitChild)
    (nodes : EncoderBuffer) (pool : Pool) (node : Node) :
    AllocM (EncoderBuffer × Pool × UInt64) := do
  let (nodes, kindOffset) ← emitKind env nodes .block 8
  let nodes ← bufferAlignTo env nodes 8
  let nodes ← bufferAppend env nodes (le32 node.childCount ++ le32 (node.childCount * 24))
  let entriesOffset := nodes.data.length
  let nodes ← bufferAppendZero env nodes (node.childCount.toNat * 24)
  allocateArray env node.childCount.toUInt64
  let (nodes, pool, entries) ←
    emitMembers env heap emitChild node.childCount.toNat node.firstChild nodes pool
  let (nodes, pool) ← storeEntries env entries entriesOffset nodes pool
  return (nodes, pool, base + UInt64.ofNat kindOffset)

/-- One turn of the loop over the elements of an array. -/
def elementTurn (emitChild : EmitChild) (offsetsOffset : Nat) (id : NodeId) :
    EncoderBuffer × Pool × UInt32 → AllocM (EncoderBuffer × Pool × UInt32)
  | (nodes, pool, index) => do
    let (nodes, pool, elementOffset) ← emitChild id nodes pool
    let nodes ← storeAt nodes (offsetsOffset + index.toNat * 8) (le64 elementOffset)
    return (nodes, pool, index + 1)

/-- `bc_hrbl_encoder_emit_array`. -/
def emitArray (env : Env) (heap : List Node) (base : UInt64) (emitChild : EmitChild)
    (nodes : EncoderBuffer) (pool : Pool) (node : Node) :
    AllocM (EncoderBuffer × Pool × UInt64) := do
  let (nodes, kindOffset) ← emitKind env nodes .array 8
  let nodes ← bufferAlignTo env nodes 8
  let nodes ← bufferAppend env nodes (le32 node.childCount ++ le32 (node.childCount * 8))
  let offsetsOffset := nodes.data.length
  let nodes ← bufferAppendZero env nodes (node.childCount.toNat * 8)
  let (nodes, pool, _) ← forSiblingsIn heap
    (fun id _ => elementTurn emitChild offsetsOffset id)
    (turnsOf heap) node.firstChild (nodes, pool, 0)
  return (nodes, pool, base + UInt64.ofNat kindOffset)

/-- `bc_hrbl_encoder_emit_value`, for nodes so many levels deep. -/
def emitValue (env : Env) (heap : List Node) (base : UInt64) : Nat → EmitChild
  | 0, _, _, _ => throw .diverges
  | depth + 1, id, nodes, pool => do
    let node ← derefNode heap id
    match node.kind with
    | .null | .false | .true | .int64 | .uint64 | .float64 | .string =>
      emitScalar env base nodes pool node
    | .block => emitBlock env heap base (emitValue env heap base depth) nodes pool node
    | .array => emitArray env heap base (emitValue env heap base depth) nodes pool node

/-! ## Fixups -/

/-- `bc_hrbl_encoder_apply_fixups`. -/
def applyFixups (nodes : EncoderBuffer) (pool : Pool) (stringsOffset : UInt64) :
    AllocM EncoderBuffer :=
  match pool.fixupOffsets.foldlM (addWordAt stringsOffset.toUInt32) nodes.data with
  | some data => return { nodes with data }
  | none => throw .fault

/-! ## The file -/

/-- A copy into the output. -/
def storeOutput (output : Bytes) (offset : UInt64) (bytes : Bytes) : AllocM Bytes :=
  if offset.toNat + bytes.length ≤ output.length then
    return overwrite output offset.toNat bytes
  else throw .fault

/-- The loop that stores the root index. -/
def storeRootIndex : List Entry → UInt64 → Bytes → AllocM Bytes
  | [], _, output => return output
  | entry :: entries, offset, output => do
    let output ← storeOutput output offset entry.encode
    storeRootIndex entries (offset + rootEntrySize) output

/-- The header of a file with parts of these sizes, still without a checksum. -/
def fileHeader (rootCount nodesSize stringsSize stringsCount : UInt64) : Header where
  magic := magicNumber
  versionMajor := versionMajorNumber
  versionMinor := versionMinorNumber
  fileSize := rootIndexStart + rootCount * rootEntrySize + nodesSize + stringsSize + footerSize
  flags := flagsV1Required
  rootCount := rootCount
  rootIndexOffset := rootIndexStart
  rootIndexSize := rootCount * rootEntrySize
  nodesOffset := rootIndexStart + rootCount * rootEntrySize
  nodesSize := nodesSize
  stringsOffset := rootIndexStart + rootCount * rootEntrySize + nodesSize
  stringsSize := stringsSize
  stringsCount := stringsCount
  footerOffset := rootIndexStart + rootCount * rootEntrySize + nodesSize + stringsSize
  checksumXxh3 := 0
  reserved := fun _ => 0

/-- The parts copied into the output. -/
def copyParts (header : Header) (rootEntries : List Entry) (nodes strings : Bytes) :
    AllocM Bytes := do
  let output ← storeOutput (List.replicate header.fileSize.toNat 0) 0 header.encode
  let output ← storeRootIndex rootEntries rootIndexStart output
  let output ← storeOutput output header.nodesOffset nodes
  storeOutput output header.stringsOffset strings

/-- The checksum of the output, and the footer. -/
def sealOutput (env : Env) (header : Header) (output : Bytes) : AllocM Bytes :=
  match fetch output rootIndexStart.toNat (header.footerOffset - rootIndexStart).toNat with
  | none => throw .fault
  | some payload => do
    let output ← storeOutput output 96 (le64 (env.hash64 payload))
    storeOutput output header.footerOffset (Footer.encode {
      checksumXxh3 := env.hash64 payload
      fileSize := header.fileSize
      magicEnd := magicNumber
      reserved := fun _ => 0 })

/-- The key of a root entry, from its place in the pool to its place in the file. -/
def absoluteKey (stringsOffset : UInt64) (entry : Entry) : Entry :=
  { entry with keyPoolOffset := (stringsOffset + entry.keyPoolOffset.toUInt64).toUInt32 }

/-- The second half of `serialize_to_buffer`. -/
def assemble (env : Env) (rootCount : UInt64) (rootEntries : List Entry)
    (nodes : EncoderBuffer) (pool : Pool) : AllocM Bytes := do
  let header := fileHeader rootCount (UInt64.ofNat nodes.data.length)
    (UInt64.ofNat pool.buffer.data.length) (UInt64.ofNat pool.entries.length)
  let nodes ← applyFixups nodes pool header.stringsOffset
  allocate env
  let output ← copyParts header (rootEntries.map (absoluteKey header.stringsOffset)) nodes.data
    pool.buffer.data
  sealOutput env header output

/-- The nodes of a writer with the offsets of their strings, and the pool: the first loop
of `serialize_to_buffer`. -/
def collectRoots (env : Env) (w : Writer) : CollectM (List Node × Pool) := do
  let pool ← leaving w.nodes (poolInit env 4096)
  let pool := { pool with workerCount := w.options.workerCount }
  forSiblingsCollecting (fun root _ s => collectStrings env (turnsOf w.nodes) root s)
    (turnsOf w.nodes) w.rootFirst (w.nodes, pool)

/-- What `serialize_to_buffer` does after that loop. -/
def emitRoots (env : Env) (w : Writer) (heap : List Node) (pool : Pool) : AllocM Bytes := do
  let nodes ← bufferInit env 4096
  let rootCount := w.rootCount.toUInt64
  let nodesOffset := rootIndexStart + rootCount * rootEntrySize
  allocateArray env rootCount
  let (nodes, pool, rootEntries) ← emitMembers env heap
    (emitValue env heap nodesOffset (turnsOf heap)) rootCount.toNat w.rootFirst nodes pool
  assemble env rootCount rootEntries nodes pool

/-- `bc_hrbl_writer_serialize_to_buffer`, with the nodes it leaves. -/
def serializeToBuffer (env : Env) (w : Writer) : CollectM (List Node × Bytes) := do
  let (heap, pool) ← collectRoots env w
  let file ← leaving heap (emitRoots env w heap pool)
  return (heap, file)

/-- How `bc_hrbl_writer_finalize_to_buffer` ends. -/
inductive Finalized where
  | returned (file : Bytes) (w : Writer)
  | refused (w : Writer)
  | faulted
  | divergent

/-- `bc_hrbl_writer_finalize_to_buffer`. -/
def finalizeToBuffer (env : Env) (w : Writer) : Finalized :=
  if w.errorFlag then .refused { w with lastError := .construction }
  else if w.currentScope.isSome then .refused { w with lastError := .unclosedScope }
  else
    match serializeToBuffer env w w.calls with
    | .ok (nodes, file) calls => .returned file { w with nodes, calls }
    | .error (.error code, nodes) calls =>
      .refused { w with
        nodes, calls
        lastError := if code = .ok then .internal else code }
    | .error (.fault, _) _ => .faulted
    | .error (.diverges, _) _ => .divergent

end Hrbl
