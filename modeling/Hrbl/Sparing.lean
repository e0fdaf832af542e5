import Hrbl.Finalize
import Hrbl.Interning

/-!
# Serialization without refusals

A serialization that comes to its end was refused nothing on the way, so it returns the same where
allocators and threads never refuse. What is proved of environments without refusals holds for
what is returned in any other.
-/

namespace Hrbl

open Lib

section

variable (env : Env)

/-! ## Buffers and the pool -/

theorem allocate_within : Within (allocate env) (allocate env.spared) := by
  intro calls a calls' h
  rw [allocate] at h ⊢
  by_cases hallocated : env.poolAllocates calls.pool = true
  · rw [if_pos hallocated] at h
    exact h
  · rw [if_neg hallocated] at h
    cases h

theorem createThread_within : Within (createThread env) (createThread env.spared) := by
  intro calls a calls' h
  rw [createThread] at h ⊢
  by_cases hcreated : env.threadCreates calls.thread = true
  · rw [if_pos hcreated] at h
    exact h
  · rw [if_neg hcreated] at h
    cases h

theorem bufferInit_within (initialCapacity : Nat) :
    Within (bufferInit env initialCapacity) (bufferInit env.spared initialCapacity) :=
  .ite (.refl _) ((allocate_within env).bind fun _ => .refl _)

theorem bufferReserve_within (b : EncoderBuffer) (required : Nat) :
    Within (bufferReserve env b required) (bufferReserve env.spared b required) :=
  .ite (.refl _) ((allocate_within env).bind fun _ => .refl _)

theorem bufferAppend_within (b : EncoderBuffer) (data : Bytes) :
    Within (bufferAppend env b data) (bufferAppend env.spared b data) :=
  (bufferReserve_within env b _).bind fun _ => .refl _

theorem bufferAlignTo_within (b : EncoderBuffer) (alignment : Nat) :
    Within (bufferAlignTo env b alignment) (bufferAlignTo env.spared b alignment) :=
  .ite (.refl _) (bufferAppend_within env b _)

theorem recordFixup_within (pool : Pool) (nodeOffset : Nat) :
    Within (recordFixup env pool nodeOffset) (recordFixup env.spared pool nodeOffset) :=
  .ite ((allocate_within env).bind fun _ => .refl _) (.refl _)

theorem slotsGrow_within (pool : Pool) (newCapacity : Nat) :
    Within (slotsGrow env pool newCapacity) (slotsGrow env.spared pool newCapacity) :=
  (allocate_within env).bind fun _ => .refl _

theorem poolInit_within (initialCapacity : Nat) :
    Within (poolInit env initialCapacity) (poolInit env.spared initialCapacity) :=
  (bufferInit_within env _).bind fun _ => slotsGrow_within env _ _

theorem entriesReserve_within (pool : Pool) (required : Nat) :
    Within (entriesReserve env pool required) (entriesReserve env.spared pool required) :=
  .ite (.refl _) ((allocate_within env).bind fun _ => .refl _)

theorem appendRecord_within (pool : Pool) (data : Bytes) :
    Within (appendRecord env pool data) (appendRecord env.spared pool data) := by
  refine (bufferAppend_within env _ _).bind fun _ => ?_
  refine (Within.ite (bufferAppend_within env _ _) (.refl _)).bind fun _ => ?_
  refine (bufferAlignTo_within env _ _).bind fun _ => ?_
  exact (entriesReserve_within env _ _).bind fun _ => .refl _

theorem reserveSlot_within (pool : Pool) (hash : UInt64) (place : Nat) :
    Within (reserveSlot env pool hash place) (reserveSlot env.spared pool hash place) :=
  .ite ((slotsGrow_within env _ _).bind fun _ => .refl _) (.refl _)

theorem internWithHash_within (pool : Pool) (data : Bytes) (rawHash : UInt64) :
    Within (internWithHash env pool data rawHash) (internWithHash env.spared pool data rawHash) := by
  refine .ite (.refl _) ?_
  split
  · exact .refl _
  · exact .refl _
  · refine .ite (.refl _) ?_
    exact (appendRecord_within env _ _).bind fun _ =>
      (reserveSlot_within env _ _ _).bind fun _ => .refl _

theorem intern_within (pool : Pool) (data : Bytes) :
    Within (intern env pool data) (intern env.spared pool data) :=
  internWithHash_within env pool data _

/-! ## Sorting -/

theorem createThreads_within (workerCount : UInt64) (workerIndex n : Nat) :
    Within (createThreads env workerCount workerIndex n)
      (createThreads env.spared workerCount workerIndex n) := by
  induction n generalizing workerIndex with
  | zero => exact .refl _
  | succ n ih =>
    refine (Within.refl _).bind fun _ => (Within.refl _).bind fun _ => ?_
    exact (createThread_within env).bind fun _ => ih _

theorem radixPassesParallel_within (workerCount : UInt64) (pass n : Nat)
    (buffers : List Entry × List Entry) :
    Within (radixPassesParallel env workerCount pass n buffers)
      (radixPassesParallel env.spared workerCount pass n buffers) := by
  induction n generalizing pass buffers with
  | zero => exact .refl _
  | succ n ih =>
    obtain ⟨source, destination⟩ := buffers
    refine Within.bind ?_ fun _ => ih _ _
    refine (createThreads_within env _ _ _).bind fun _ => (Within.refl _).bind fun _ => ?_
    exact (createThreads_within env _ _ _).bind fun _ => .refl _

theorem pendingSort_within (entries : List Entry) (workerCount : UInt64) :
    Within (pendingSort env entries workerCount) (pendingSort env.spared entries workerCount) := by
  refine .ite (.refl _) (.ite (.refl _) (.ite ?_ ?_))
  · refine (allocate_within env).bind fun _ => (allocate_within env).bind fun _ => ?_
    refine (allocate_within env).bind fun _ => ?_
    exact (radixPassesParallel_within env _ _ _ _).bind fun _ => .refl _
  · exact (allocate_within env).bind fun _ => .refl _

/-! ## Strings -/

theorem forSiblings_within {ε σ : Type} {deref : σ → NodeId → EStateM ε Calls Node}
    {diverges : σ → ε} {body body' : NodeId → Node → σ → EStateM ε Calls σ}
    (hbody : ∀ id node s, Within (body id node s) (body' id node s)) (turns : Nat)
    (next : Option NodeId) (s : σ) :
    Within (forSiblings deref diverges body turns next s)
      (forSiblings deref diverges body' turns next s) := by
  induction turns generalizing next s with
  | zero =>
    cases next with
    | none => exact .refl _
    | some id => exact .refl _
  | succ turns ih =>
    cases next with
    | none => exact .refl _
    | some id =>
      refine (Within.refl _).bind fun _ => (hbody _ _ _).bind fun _ => ?_
      exact (Within.refl _).bind fun _ => ih _ _

theorem collectKey_within (id : NodeId) (node : Node) (heap : List Node) (pool : Pool) :
    Within (collectKey env id node heap pool) (collectKey env.spared id node heap pool) := by
  unfold collectKey
  split
  · exact .refl _
  · refine (Within.refl _).bind fun _ => ?_
    exact ((internWithHash_within env _ _ _).adapt _).bind fun _ => .refl _

theorem collectValue_within (id : NodeId) (node : Node) (heap : List Node) (pool : Pool) :
    Within (collectValue env id node heap pool) (collectValue env.spared id node heap pool) := by
  refine .ite ((Within.refl _).bind fun _ => ?_) (.refl _)
  exact ((intern_within env _ _).adapt _).bind fun _ => .refl _

theorem collectStrings_within (depth : Nat) (id : NodeId) (s : List Node × Pool) :
    Within (collectStrings env depth id s) (collectStrings env.spared depth id s) := by
  induction depth generalizing id s with
  | zero => exact .refl _
  | succ depth ih =>
    obtain ⟨heap, pool⟩ := s
    refine (Within.refl _).bind fun _ => Within.bind ?_ fun _ => ?_
    · exact (collectKey_within env _ _ _ _).bind fun _ => collectValue_within env _ _ _ _
    · exact forSiblings_within (fun _ _ _ => ih _ _) _ _ _

theorem collectRoots_within (w : Writer) :
    Within (collectRoots env w) (collectRoots env.spared w) :=
  ((poolInit_within env _).adapt _).bind fun _ =>
    forSiblings_within (fun _ _ _ => collectStrings_within env _ _ _) _ _ _

/-! ## Nodes -/

theorem emitKind_within (nodes : EncoderBuffer) (kind : Kind) (bodyAlign : Nat) :
    Within (emitKind env nodes kind bodyAlign) (emitKind env.spared nodes kind bodyAlign) :=
  (Within.ite (bufferAppend_within env _ _) (.refl _)).bind fun _ =>
    (bufferAppend_within env _ _).bind fun _ => .refl _

theorem emitStringRef_within (nodes : EncoderBuffer) (pool : Pool) (node : Node) :
    Within (emitStringRef env nodes pool node) (emitStringRef env.spared nodes pool node) := by
  refine (Within.refl _).bind fun _ => ?_
  refine (Within.ite (intern_within env _ _) (.refl _)).bind fun _ => ?_
  refine (bufferAppend_within env _ _).bind fun _ => ?_
  exact (recordFixup_within env _ _).bind fun _ => .refl _

theorem emitBody_within (nodes : EncoderBuffer) (pool : Pool) (node : Node) :
    Within (emitBody env nodes pool node) (emitBody env.spared nodes pool node) := by
  unfold emitBody
  split
  case _ => exact .refl _
  case _ => exact .refl _
  case _ => exact .refl _
  case _ => exact (bufferAppend_within env _ _).bind fun _ => .refl _
  case _ => exact (bufferAppend_within env _ _).bind fun _ => .refl _
  case _ => exact (bufferAppend_within env _ _).bind fun _ => .refl _
  case _ => exact emitStringRef_within env _ _ _
  case _ => exact .refl _
  case _ => exact .refl _

theorem emitScalar_within (base : UInt64) (nodes : EncoderBuffer) (pool : Pool) (node : Node) :
    Within (emitScalar env base nodes pool node) (emitScalar env.spared base nodes pool node) :=
  (emitKind_within env _ _ _).bind fun _ => (emitBody_within env _ _ _).bind fun _ => .refl _

theorem allocateArray_within (count : UInt64) :
    Within (allocateArray env count) (allocateArray env.spared count) :=
  .ite (allocate_within env) (.refl _)

section

variable {emitChild emitChild' : EmitChild}
  (hchild : ∀ id nodes pool, Within (emitChild id nodes pool) (emitChild' id nodes pool))

include hchild

theorem emitMembers_within (heap : List Node) (count : Nat) (first : Option NodeId)
    (nodes : EncoderBuffer) (pool : Pool) :
    Within (emitMembers env heap emitChild count first nodes pool)
      (emitMembers env.spared heap emitChild' count first nodes pool) := by
  refine Within.bind (forSiblings_within (fun id child s => ?_) _ _ _) fun _ => ?_
  · obtain ⟨nodes, pool, pending⟩ := s
    refine Within.bind (Within.bind ?_ fun _ => ?_) fun _ => .refl _
    -- the key
    · refine (Within.refl _).bind fun _ => ?_
      exact (Within.ite (internWithHash_within env _ _ _) (.refl _)).bind fun _ => .refl _
    -- the value
    · exact (hchild _ _ _).bind fun _ => .refl _
  · exact .ite (.refl _) ((pendingSort_within env _ _).bind fun _ => .refl _)

theorem emitBlock_within (heap : List Node) (base : UInt64) (nodes : EncoderBuffer) (pool : Pool)
    (node : Node) :
    Within (emitBlock env heap base emitChild nodes pool node)
      (emitBlock env.spared heap base emitChild' nodes pool node) := by
  have hstore : ∀ (entries : List Entry) (offset : Nat) (nodes : EncoderBuffer) (pool : Pool),
      Within (storeEntries env entries offset nodes pool)
        (storeEntries env.spared entries offset nodes pool) := by
    intro entries
    induction entries with
    | nil =>
      intro _ _ _
      exact .refl _
    | cons entry entries ih =>
      intro _ _ _
      refine (Within.refl _).bind fun _ => ?_
      exact (recordFixup_within env _ _).bind fun _ => ih _ _ _
  refine (emitKind_within env _ _ _).bind fun _ => ?_
  refine (bufferAlignTo_within env _ _).bind fun _ => ?_
  refine (bufferAppend_within env _ _).bind fun _ => ?_
  refine (bufferAppend_within env _ _).bind fun _ => ?_
  refine (allocateArray_within env _).bind fun _ => ?_
  refine (emitMembers_within env hchild _ _ _ _ _).bind fun _ => ?_
  exact (hstore _ _ _ _).bind fun _ => .refl _

theorem emitArray_within (heap : List Node) (base : UInt64) (nodes : EncoderBuffer) (pool : Pool)
    (node : Node) :
    Within (emitArray env heap base emitChild nodes pool node)
      (emitArray env.spared heap base emitChild' nodes pool node) := by
  refine (emitKind_within env _ _ _).bind fun _ => ?_
  refine (bufferAlignTo_within env _ _).bind fun _ => ?_
  refine (bufferAppend_within env _ _).bind fun _ => ?_
  refine (bufferAppend_within env _ _).bind fun _ => ?_
  refine Within.bind (forSiblings_within (fun id _ s => ?_) _ _ _) fun _ => .refl _
  obtain ⟨nodes, pool, index⟩ := s
  exact (hchild _ _ _).bind fun _ => .refl _

end

theorem emitValue_within (heap : List Node) (base : UInt64) (depth : Nat) (id : NodeId)
    (nodes : EncoderBuffer) (pool : Pool) :
    Within (emitValue env heap base depth id nodes pool)
      (emitValue env.spared heap base depth id nodes pool) := by
  induction depth generalizing id nodes pool with
  | zero => exact .refl _
  | succ depth ih =>
    rw [emitValue, emitValue]
    refine (Within.refl _).bind fun node => ?_
    cases node.kind with
    | null | false | true | int64 | uint64 | float64 | string => exact emitScalar_within env _ _ _ _
    | block => exact emitBlock_within env ih _ _ _ _ _
    | array => exact emitArray_within env ih _ _ _ _ _

theorem emitNodes_within (w : Writer) (heap : List Node) (pool : Pool) :
    Within (emitNodes env w heap pool) (emitNodes env.spared w heap pool) :=
  (bufferInit_within env _).bind fun _ => (allocateArray_within env _).bind fun _ =>
    emitMembers_within env (emitValue_within env heap _ _) _ _ _ _ _

/-! ## The file -/

theorem assemble_within (rootCount : UInt64) (rootEntries : List Entry) (nodes : EncoderBuffer)
    (pool : Pool) :
    Within (assemble env rootCount rootEntries nodes pool)
      (assemble env.spared rootCount rootEntries nodes pool) :=
  (Within.refl _).bind fun _ => (allocate_within env).bind fun _ => .refl _

theorem serializeToBuffer_within (w : Writer) :
    Within (serializeToBuffer env w) (serializeToBuffer env.spared w) := by
  refine (collectRoots_within env w).bind fun _ => Within.bind (Within.adapt _ ?_) fun _ => .refl _
  rw [emitRoots_eq, emitRoots_eq]
  exact (emitNodes_within env w _ _).bind fun _ => assemble_within env _ _ _ _

theorem finalizeToBuffer_spared {w w' : Writer} {file : Bytes}
    (h : finalizeToBuffer env w = .returned file w') :
    finalizeToBuffer env.spared w = .returned file w' := by
  unfold finalizeToBuffer at h ⊢
  split
  · rename_i herror
    rw [if_pos herror] at h
    cases h
  · rename_i herror
    rw [if_neg herror] at h
    split
    · rename_i hscope
      rw [if_pos hscope] at h
      cases h
    · rename_i hscope
      rw [if_neg hscope] at h
      cases hrun : serializeToBuffer env w w.calls with
      | ok result calls =>
        rw [hrun] at h
        rw [serializeToBuffer_within env w hrun]
        exact h
      | error e calls =>
        rw [hrun] at h
        obtain ⟨failure, heap⟩ := e
        cases failure <;> cases h

end

/-- What a writer holds does not depend on the allocator. -/
theorem Stored.spared {env : Env} {w : Writer} {trees : List NodeTree} {document : Document}
    (h : Stored env w trees document) : Stored env.spared w trees document :=
  ⟨h.valid, h.closed, h.ends, h.siblings, h.nodup, h.denotes⟩

end Hrbl
