import Hrbl.Caches
import Hrbl.Reaching

/-!
# Finalizing depends on the document alone

Two writers that hold the same document are finalized in lockstep: whatever offsets an
earlier call has left in the nodes, the collection stores new ones before the emission reads
them, and from there on both do the same. Only the capacities of the two pools may differ.
-/

namespace Hrbl

open Lib NodeTree

/-- Two environments that refuse nothing and hash alike. -/
structure Twins (env env' : Env) : Prop where
  left : env.Succeeds
  right : env'.Succeeds
  hash : env'.hash64 = env.hash64

/-- Two pools with the same strings and the same fixups, and with numbers of workers that both
fit or both do not. -/
structure SamePool (hash64 : Bytes → UInt64) (pool pool' : Pool) : Prop where
  strings : ∃ strings workerCount workerCount', PoolHolds hash64 workerCount strings pool ∧
    PoolHolds hash64 workerCount' strings pool' ∧ (WorkersFit workerCount ↔ WorkersFit workerCount')
  fixups : pool'.fixupOffsets = pool.fixupOffsets

/-- The same buffer, pools with the same strings, and the same result. -/
structure SameEmitted (hash64 : Bytes → UInt64) {α : Type} (r r' : EncoderBuffer × Pool × α) :
    Prop where
  nodes : r'.1 = r.1
  pool : SamePool hash64 r.2.1 r'.2.1
  result : r'.2.2 = r.2.2

section

variable {env env' : Env} (h : Twins env env')

include h

/-! ## Buffers and pools -/

theorem allocate_lockstep : Lockstep Eq (allocate env) (allocate env') :=
  .of_yields (allocate_yields h.left) (allocate_yields h.right) rfl

theorem bufferReserve_lockstep (b : EncoderBuffer) (required : Nat) :
    Lockstep Eq (bufferReserve env b required) (bufferReserve env' b required) := by
  unfold bufferReserve
  split
  · exact .pure rfl
  · exact (allocate_lockstep h).bind fun _ _ _ => .pure rfl

theorem bufferAppend_lockstep (b : EncoderBuffer) (data : Bytes) :
    Lockstep Eq (bufferAppend env b data) (bufferAppend env' b data) := by
  refine (bufferReserve_lockstep h b _).bind fun b₁ b₁' heq => ?_
  subst heq
  exact .pure rfl

theorem bufferAlignTo_lockstep (b : EncoderBuffer) (alignment : Nat) :
    Lockstep Eq (bufferAlignTo env b alignment) (bufferAlignTo env' b alignment) := by
  unfold bufferAlignTo
  simp only
  split
  · exact .pure rfl
  · exact bufferAppend_lockstep h b _

theorem emitKind_lockstep (nodes : EncoderBuffer) (kind : Kind) (bodyAlign : Nat) :
    Lockstep Eq (emitKind env nodes kind bodyAlign) (emitKind env' nodes kind bodyAlign) := by
  unfold emitKind
  simp only
  refine Lockstep.bind (R := Eq) ?_ fun b b' heq => ?_
  · split
    · exact bufferAppend_lockstep h nodes _
    · exact .pure rfl
  subst heq
  refine (bufferAppend_lockstep h b _).bind fun c c' heq => ?_
  subst heq
  exact .pure rfl

theorem recordFixup_lockstep {pool pool' : Pool} (hpool : SamePool env.hash64 pool pool')
    (nodeOffset : Nat) :
    Lockstep (SamePool env.hash64) (recordFixup env pool nodeOffset)
      (recordFixup env' pool' nodeOffset) := by
  obtain ⟨⟨strings, workers, workers', hholds, hholds', hworkers⟩, hfixups⟩ := hpool
  obtain ⟨capacity, hyields⟩ := recordFixup_yields h.left pool nodeOffset
  obtain ⟨capacity', hyields'⟩ := recordFixup_yields h.right pool' nodeOffset
  refine .of_yields hyields hyields' 
    ⟨⟨strings, workers, workers', hholds.fixups _ _, hholds'.fixups _ _, hworkers⟩, ?_⟩
  rw [hfixups]

/-- A use of a string: both pools have room for it, or neither has. -/
theorem intern_lockstep {pool pool' : Pool} (hpool : SamePool env.hash64 pool pool')
    {data : Bytes} (hdata : data.length ≤ lengthMax) :
    Lockstep (fun r r' => SamePool env.hash64 r.1 r'.1 ∧ r'.2 = r.2)
      (internWithHash env pool data (env.hash64 data))
      (internWithHash env' pool' data (env'.hash64 data)) := by
  obtain ⟨⟨strings, workers, workers', hholds, hholds', hworkers⟩, hfixups⟩ := hpool
  rw [← h.hash] at hholds'
  by_cases hfit : data ∉ strings → (poolBytes strings).length ≤ lengthMax
  · obtain ⟨pool₁, hyields, hpool₁, hfixups₁⟩ := internWithHash_yields h.left hholds hdata
      (by rw [hholds.buffer]; exact hfit)
    obtain ⟨pool₁', hyields', hpool₁', hfixups₁'⟩ := internWithHash_yields h.right hholds' hdata
      (by rw [hholds'.buffer]; exact hfit)
    rw [h.hash] at hpool₁'
    refine .of_yields hyields hyields' 
      ⟨⟨⟨_, workers, workers', hpool₁, hpool₁', hworkers⟩, ?_⟩, rfl⟩
    rw [hfixups₁', hfixups, hfixups₁]
  · rw [Classical.not_imp, Nat.not_le] at hfit
    exact .of_errors
      (internWithHash_overflow hholds hdata hfit.1 (by rw [hholds.buffer]; exact hfit.2))
      (internWithHash_overflow hholds' hdata hfit.1 (by rw [hholds'.buffer]; exact hfit.2))

/-! ## Scalars -/

/-- A reference to a collected string. -/
theorem emitStringRef_lockstep {C : List Bytes} {value : Bytes} {node node' : Node}
    (hpayload : node.HoldsPayload (.string value)) (hpayload' : node'.HoldsPayload (.string value))
    (hcached : node.cachedStringPoolOffset = UInt32.ofNat (poolOffsetOf C value))
    (hcached' : node'.cachedStringPoolOffset = UInt32.ofNat (poolOffsetOf C value))
    (nodes : EncoderBuffer) {pool pool' : Pool} (hpool : SamePool env.hash64 pool pool') :
    Lockstep (fun r r' => r'.1 = r.1 ∧ SamePool env.hash64 r.2 r'.2)
      (emitStringRef env nodes pool node) (emitStringRef env' nodes pool' node') := by
  obtain ⟨hlen, hdata, hlength⟩ := hpayload
  obtain ⟨-, hdata', hlength'⟩ := hpayload'
  rw [emitStringRef, emitStringRef, hdata, hdata', hlength, hlength', hcached, hcached']
  refine Lockstep.bind (.of_yields (pointedBytes_yields hlen) (pointedBytes_yields hlen) rfl)
    fun data data' heq => ?_
  subst heq
  simp only [if_neg (offset_ne_none C value), pure_bind]
  refine (bufferAppend_lockstep h nodes _).bind fun b b' heq => ?_
  subst heq
  exact (recordFixup_lockstep h hpool _).bind fun p p' hp => .pure ⟨rfl, hp⟩

theorem emitBody_lockstep {C : List Bytes} {s : Scalar} {node node' : Node}
    (hkind : node.kind = s.kind) (hkind' : node'.kind = s.kind)
    (hpayload : node.HoldsPayload s) (hpayload' : node'.HoldsPayload s)
    (nodes : EncoderBuffer) {pool pool' : Pool} (hpool : SamePool env.hash64 pool pool') :
    Lockstep (fun r r' => r'.1 = r.1 ∧ SamePool env.hash64 r.2 r'.2)
      (emitBody env nodes pool (node.cached C)) (emitBody env' nodes pool' (node'.cached C)) := by
  have hheld := hpayload.cached C
  have hheld' := hpayload'.cached C
  have hword : ∀ bytes bytes', bytes' = bytes →
      Lockstep (fun r r' => r'.1 = r.1 ∧ SamePool env.hash64 r.2 r'.2)
        (bufferAppend env nodes bytes >>= fun b => pure (b, pool))
        (bufferAppend env' nodes bytes' >>= fun b => pure (b, pool')) := by
    rintro bytes bytes' rfl
    refine (bufferAppend_lockstep h nodes _).bind fun b b' heq => ?_
    subst heq
    exact .pure ⟨rfl, hpool⟩
  rw [emitBody, emitBody, Node.cached_kind, Node.cached_kind, hkind, hkind']
  cases s with
  | null => exact .pure ⟨rfl, hpool⟩
  | bool value => cases value <;> exact .pure ⟨rfl, hpool⟩
  | int64 value =>
    exact hword _ _ (by rw [show _ = value from hheld, show _ = value from hheld'])
  | uint64 value =>
    exact hword _ _ (by rw [show _ = value from hheld, show _ = value from hheld'])
  | float64 bits => exact hword _ _ (by rw [show _ = bits from hheld, show _ = bits from hheld'])
  | string value =>
    exact emitStringRef_lockstep h hheld hheld' (Node.cached_string hkind hpayload C)
      (Node.cached_string hkind' hpayload' C) nodes hpool

theorem emitScalar_lockstep {C : List Bytes} {s : Scalar} {node node' : Node}
    (hkind : node.kind = s.kind) (hkind' : node'.kind = s.kind)
    (hpayload : node.HoldsPayload s) (hpayload' : node'.HoldsPayload s) (base : UInt64)
    (nodes : EncoderBuffer) {pool pool' : Pool} (hpool : SamePool env.hash64 pool pool') :
    Lockstep (SameEmitted env.hash64) (emitScalar env base nodes pool (node.cached C))
      (emitScalar env' base nodes pool' (node'.cached C)) := by
  rw [emitScalar, emitScalar, Node.cached_kind, Node.cached_kind, hkind, hkind']
  refine (emitKind_lockstep h nodes _ _).bind fun r r' heq => ?_
  subst heq
  refine (emitBody_lockstep h hkind hkind' hpayload hpayload' r.1 hpool).bind fun b b' hb => ?_
  exact .pure ⟨hb.1, hb.2, rfl⟩

/-! ## Members -/

/-- The key of a member: an empty one is used, another one has its offset in the node. -/
theorem emitKey_lockstep {C : List Bytes} {node node' : Node} {key : Bytes}
    (hkey : node.HoldsKey env.hash64 key) (hkey' : node'.HoldsKey env.hash64 key)
    {pool pool' : Pool} (hpool : SamePool env.hash64 pool pool') :
    Lockstep (fun r r' => SamePool env.hash64 r.1 r'.1 ∧ r'.2 = r.2)
      (emitKey env (node.cached C) pool) (emitKey env' (node'.cached C) pool') := by
  have hhash : memberHash env (node.cached C) key = env.hash64 key := memberHash_cached hkey
  have hhash' : memberHash env' (node'.cached C) key = env'.hash64 key :=
    memberHash_cached (h.hash ▸ hkey')
  rw [emitKey, emitKey, Node.cached_keyData, Node.cached_keyData, Node.cached_keyLength,
    Node.cached_keyLength, hkey.data, hkey'.data, hkey.length, hkey'.length,
    Node.cached_key hkey, Node.cached_key hkey']
  refine Lockstep.bind (R := fun a a' => a = key ∧ a' = key)
    (.of_yields (pointedBytes_yields hkey.length_le) (pointedBytes_yields hkey.length_le)
      ⟨rfl, rfl⟩) ?_
  rintro a a' ⟨rfl, rfl⟩
  rw [hhash, hhash', h.hash]
  by_cases hempty : a' = []
  · simp only [if_pos hempty]
    have hintern := intern_lockstep h hpool hkey.length_le
    rw [h.hash] at hintern
    refine hintern.bind fun r r' hr => .pure ⟨hr.1, ?_⟩
    rw [hr.2]
  · simp only [if_neg hempty, if_neg (offset_ne_none C a'), pure_bind]
    exact .pure ⟨hpool, rfl⟩

/-- Two ways to emit the children of a node do the same to two nodes. -/
def SameChild (env : Env) (emitChild emitChild' : EmitChild) (id id' : NodeId) : Prop :=
  ∀ (nodes : EncoderBuffer) (pool pool' : Pool), SamePool env.hash64 pool pool' →
    Lockstep (SameEmitted env.hash64) (emitChild id nodes pool) (emitChild' id' nodes pool')

theorem memberTurn_lockstep {C : List Bytes} {node node' : Node} {key : Bytes}
    {emitChild emitChild' : EmitChild} {id id' : NodeId}
    (hkey : node.HoldsKey env.hash64 key) (hkey' : node'.HoldsKey env.hash64 key)
    (hchild : SameChild env emitChild emitChild' id id') (count : Nat)
    {s s' : EncoderBuffer × Pool × List Entry} (hs : SameEmitted env.hash64 s s') :
    Lockstep (SameEmitted env.hash64) (memberTurn env emitChild count id (node.cached C) s)
      (memberTurn env' emitChild' count id' (node'.cached C) s') := by
  obtain ⟨nodes, pool, pending⟩ := s
  obtain ⟨nodes', pool', pending'⟩ := s'
  obtain ⟨rfl, hpool, rfl⟩ := hs
  have hmember : Lockstep (SameEmitted env.hash64)
      (emitMember env emitChild id (node.cached C) nodes' pool)
      (emitMember env' emitChild' id' (node'.cached C) nodes' pool') := by
    refine (emitKey_lockstep h hkey hkey' hpool).bind fun k k' hk => ?_
    refine (hchild nodes' _ _ hk.1).bind fun r r' hr => .pure ⟨hr.nodes, hr.pool, ?_⟩
    simp only [hk.2, hr.result]
  refine hmember.bind fun r r' hr => ?_
  simp only
  split
  · exact .pure ⟨hr.nodes, hr.pool, by rw [hr.result]⟩
  · exact .throw _

omit h in
theorem storeAt_lockstep (b : EncoderBuffer) (offset : Nat) (bytes : Bytes) :
    Lockstep Eq (storeAt b offset bytes) (storeAt b offset bytes) := by
  unfold storeAt
  split
  · exact .pure rfl
  · exact .throw _

omit h in
theorem elementTurn_lockstep {emitChild emitChild' : EmitChild} {id id' : NodeId}
    (hchild : SameChild env emitChild emitChild' id id') (offsetsOffset : Nat)
    {s s' : EncoderBuffer × Pool × UInt32} (hs : SameEmitted env.hash64 s s') :
    Lockstep (SameEmitted env.hash64) (elementTurn emitChild offsetsOffset id s)
      (elementTurn emitChild' offsetsOffset id' s') := by
  obtain ⟨nodes, pool, index⟩ := s
  obtain ⟨nodes', pool', index'⟩ := s'
  obtain ⟨rfl, hpool, rfl⟩ := hs
  refine (hchild nodes' _ _ hpool).bind fun r r' hr => ?_
  simp only [hr.nodes, hr.result]
  refine (storeAt_lockstep r.1 _ _).bind fun b b' heq => ?_
  subst heq
  exact .pure ⟨rfl, hr.pool, rfl⟩

/-! ## Containers -/

theorem storeEntries_lockstep (entries : List Entry) (offset : Nat) (nodes : EncoderBuffer)
    {pool pool' : Pool} (hpool : SamePool env.hash64 pool pool') :
    Lockstep (fun r r' => r'.1 = r.1 ∧ SamePool env.hash64 r.2 r'.2)
      (storeEntries env entries offset nodes pool)
      (storeEntries env' entries offset nodes pool') := by
  induction entries generalizing offset nodes pool pool' with
  | nil => exact .pure ⟨rfl, hpool⟩
  | cons entry entries ih =>
    refine (storeAt_lockstep nodes _ _).bind fun b b' heq => ?_
    subst heq
    exact (recordFixup_lockstep h hpool _).bind fun p p' hp => ih _ _ hp

theorem allocateArray_lockstep (count : UInt64) :
    Lockstep Eq (allocateArray env count) (allocateArray env' count) := by
  unfold allocateArray
  split
  · exact allocate_lockstep h
  · exact .pure rfl

/-- The sort leaves the same entries, or both store outside of an array. -/
theorem pendingSort_lockstep (entries : List Entry) {workerCount workerCount' : UInt64}
    (hworkers : WorkersFit workerCount ↔ WorkersFit workerCount') :
    Lockstep Eq (pendingSort env entries workerCount) (pendingSort env' entries workerCount') := by
  have hsortable : Sortable workerCount entries.length ↔ Sortable workerCount' entries.length :=
    or_congr_right hworkers
  by_cases hsorts : Sortable workerCount entries.length
  · exact .of_yields (pendingSort_yields h.left hsorts)
      (pendingSort_yields h.right (hsortable.mp hsorts)) rfl
  · exact .of_errors (pendingSort_wrapped h.left hsorts)
      (pendingSort_wrapped h.right fun hsorts' => hsorts (hsortable.mpr hsorts'))

/-- After the loop over the members, the sort. -/
theorem emitMembers_lockstep {heap heap' : List Node} {emitChild emitChild' : EmitChild}
    {first first' : Option NodeId} {count : Nat} {nodes : EncoderBuffer} {pool pool' : Pool}
    (hloop : Lockstep (SameEmitted env.hash64)
      (forSiblingsIn heap (memberTurn env emitChild count) (turnsOf heap) first (nodes, pool, []))
      (forSiblingsIn heap' (memberTurn env' emitChild' count) (turnsOf heap') first'
        (nodes, pool', []))) :
    Lockstep (SameEmitted env.hash64) (emitMembers env heap emitChild count first nodes pool)
      (emitMembers env' heap' emitChild' count first' nodes pool') := by
  refine hloop.bind fun r r' hr => ?_
  simp only [hr.result]
  split
  · exact .throw _
  · obtain ⟨strings, workers, workers', hholds, hholds', hworkers⟩ := hr.pool.strings
    rw [hholds.workers, hholds'.workers]
    refine (pendingSort_lockstep h _ hworkers).bind fun sorted sorted' heq => ?_
    subst heq
    exact .pure ⟨hr.nodes, hr.pool, rfl⟩

theorem emitBlock_lockstep {heap heap' : List Node} {emitChild emitChild' : EmitChild}
    {node node' : Node} (hcount : node'.childCount = node.childCount) (base : UInt64)
    (nodes : EncoderBuffer) {pool pool' : Pool} (hpool : SamePool env.hash64 pool pool')
    (hloop : ∀ (s s' : EncoderBuffer × Pool × List Entry), SameEmitted env.hash64 s s' →
      Lockstep (SameEmitted env.hash64)
        (forSiblingsIn heap (memberTurn env emitChild node.childCount.toNat) (turnsOf heap)
          node.firstChild s)
        (forSiblingsIn heap' (memberTurn env' emitChild' node.childCount.toNat) (turnsOf heap')
          node'.firstChild s')) :
    Lockstep (SameEmitted env.hash64) (emitBlock env heap base emitChild nodes pool node)
      (emitBlock env' heap' base emitChild' nodes pool' node') := by
  unfold emitBlock
  rw [hcount]
  refine (emitKind_lockstep h nodes _ _).bind fun k k' heq => ?_
  subst heq
  refine (bufferAlignTo_lockstep h k.1 _).bind fun b b' heq => ?_
  subst heq
  refine (bufferAppend_lockstep h b _).bind fun c c' heq => ?_
  subst heq
  refine (bufferAppend_lockstep h c _).bind fun d d' heq => ?_
  subst heq
  refine (allocateArray_lockstep h _).bind fun _ _ _ => ?_
  refine (emitMembers_lockstep h (hloop (d, pool, []) (d, pool', []) ⟨rfl, hpool, rfl⟩)).bind
    fun r r' hr => ?_
  simp only [hr.nodes, hr.result]
  exact (storeEntries_lockstep h _ _ r.1 hr.pool).bind fun e e' he => .pure ⟨he.1, he.2, rfl⟩

theorem emitArray_lockstep {heap heap' : List Node} {emitChild emitChild' : EmitChild}
    {node node' : Node} (hcount : node'.childCount = node.childCount) (base : UInt64)
    (nodes : EncoderBuffer) {pool pool' : Pool} (hpool : SamePool env.hash64 pool pool')
    (hloop : ∀ (offsetsOffset : Nat) (s s' : EncoderBuffer × Pool × UInt32),
      SameEmitted env.hash64 s s' → Lockstep (SameEmitted env.hash64)
        (forSiblingsIn heap (fun id _ => elementTurn emitChild offsetsOffset id) (turnsOf heap)
          node.firstChild s)
        (forSiblingsIn heap' (fun id _ => elementTurn emitChild' offsetsOffset id) (turnsOf heap')
          node'.firstChild s')) :
    Lockstep (SameEmitted env.hash64) (emitArray env heap base emitChild nodes pool node)
      (emitArray env' heap' base emitChild' nodes pool' node') := by
  unfold emitArray
  rw [hcount]
  refine (emitKind_lockstep h nodes _ _).bind fun k k' heq => ?_
  subst heq
  refine (bufferAlignTo_lockstep h k.1 _).bind fun b b' heq => ?_
  subst heq
  refine (bufferAppend_lockstep h b _).bind fun c c' heq => ?_
  subst heq
  refine (bufferAppend_lockstep h c _).bind fun d d' heq => ?_
  subst heq
  refine (hloop c.data.length (d, pool, 0) (d, pool', 0) ⟨rfl, hpool, rfl⟩).bind fun r r' hr => ?_
  exact .pure ⟨hr.nodes, hr.pool, rfl⟩

/-! ## Trees -/

variable {C : List Bytes} {heap₀ heap heap₀' heap' : List Node}

omit h in
/-- Two loops over siblings that stand for the same members. -/
theorem forSiblings_lockstep {σ : Type} {R : σ → σ → Prop}
    {body body' : NodeId → Node → σ → AllocM σ} {size size' : Nat}
    (hbody : ∀ (t t' : NodeTree) (key : Bytes) (value : Value) (node node' : Node) (s s' : σ),
      Collected env.hash64 C heap₀ heap t key value →
      Collected env.hash64 C heap₀' heap' t' key value → t.ids.length ≤ size →
      t'.ids.length ≤ size' → node.HoldsKey env.hash64 key → node'.HoldsKey env.hash64 key →
      R s s' → Lockstep R (body t.nodeId (node.cached C) s) (body' t'.nodeId (node'.cached C) s'))
    {members : List (Bytes × Value)} {ts ts' : List NodeTree} {turns turns' : Nat} {s s' : σ}
    (hts : CollectedChain env.hash64 C heap₀ heap ts members)
    (hts' : CollectedChain env.hash64 C heap₀' heap' ts' members)
    (hsize : (idsOf ts).length ≤ size) (hsize' : (idsOf ts').length ≤ size')
    (hturns : ts.length ≤ turns) (hturns' : ts'.length ≤ turns') (hs : R s s') :
    Lockstep R (forSiblingsIn heap body turns (firstId ts none) s)
      (forSiblingsIn heap' body' turns' (firstId ts' none) s') := by
  induction members generalizing ts ts' turns turns' s s' with
  | nil =>
    cases hts.denotes
    cases hts'.denotes
    exact .of_yields (forSiblings_none turns s) (forSiblings_none turns' s') hs
  | cons member members ih =>
    obtain ⟨key, value⟩ := member
    cases ts with
    | nil => cases hts.denotes
    | cons t ts =>
    cases ts' with
    | nil => cases hts'.denotes
    | cons t' ts' =>
    cases turns with
    | zero => cases hturns
    | succ turns =>
    cases turns' with
    | zero => cases hturns'
    | succ turns' =>
    obtain ⟨node, hnode, hkey, hnext⟩ := hts.first
    obtain ⟨node', hnode', hkey', hnext'⟩ := hts'.first
    rw [idsOf, List.length_append] at hsize hsize'
    have hread := Lockstep.of_yields (derefNode_yields hnode) (derefNode_yields hnode')
      (R := fun n n' => n = node.cached C ∧ n' = node'.cached C) ⟨rfl, rfl⟩
    refine hread.bind fun n n' hn => ?_
    rw [hn.1, hn.2]
    refine (hbody t t' key value node node' s s' hts.head hts'.head (by omega) (by omega) hkey
      hkey' hs).bind fun s₁ s₁' hs₁ => ?_
    refine hread.bind fun n n' hn => ?_
    rw [hn.1, hn.2, Node.cached_nextSibling, Node.cached_nextSibling, hnext, hnext']
    exact ih hts.tail hts'.tail (by omega) (by omega) (Nat.le_of_succ_le_succ hturns)
      (Nat.le_of_succ_le_succ hturns') hs₁

/-- Two trees that denote the same value are emitted alike. -/
theorem emitValue_lockstep {base : UInt64} {depth depth' : Nat} {t t' : NodeTree} {key : Bytes}
    {value : Value} (ht : Collected env.hash64 C heap₀ heap t key value)
    (ht' : Collected env.hash64 C heap₀' heap' t' key value) (hdepth : t.ids.length ≤ depth)
    (hdepth' : t'.ids.length ≤ depth') :
    SameChild env (emitValue env heap base depth) (emitValue env' heap' base depth') t.nodeId
      t'.nodeId := by
  induction depth generalizing depth' t t' key value with
  | zero =>
    obtain ⟨id, ts⟩ := t
    rw [ids, List.length_cons] at hdepth
    omega
  | succ depth ih =>
  obtain ⟨id, ts⟩ := t
  obtain ⟨id', ts'⟩ := t'
  rw [ids, List.length_cons] at hdepth hdepth'
  cases depth' with
  | zero => omega
  | succ depth' =>
  intro nodes pool pool' hpool
  rw [emitValue, emitValue]
  -- both trees denote the same value, so both emit a node of the same kind
  cases value with
  | scalar s =>
    obtain ⟨node, hnode, hkind, hpayload⟩ := ht.scalar
    obtain ⟨node', hnode', hkind', hpayload'⟩ := ht'.scalar
    have hemits := emitScalar_lockstep (C := C) h hkind hkind' hpayload hpayload' base nodes hpool
    refine Lockstep.bind (.of_yields (derefNode_yields hnode) (derefNode_yields hnode')
      (R := fun n n' => n = node.cached C ∧ n' = node'.cached C) ⟨rfl, rfl⟩) fun n n' hn => ?_
    rw [hn.1, hn.2, Node.cached_kind, Node.cached_kind, hkind, hkind']
    cases s with
    | bool value => cases value <;> exact hemits
    | _ => exact hemits
  | block members =>
    obtain ⟨node, hnode, hkind, hcount, hfirst, hchain⟩ := ht.block
    obtain ⟨node', hnode', hkind', hcount', hfirst', hchain'⟩ := ht'.block
    refine Lockstep.bind (.of_yields (derefNode_yields hnode) (derefNode_yields hnode')
      (R := fun n n' => n = node.cached C ∧ n' = node'.cached C) ⟨rfl, rfl⟩) fun n n' hn => ?_
    rw [hn.1, hn.2, Node.cached_kind, Node.cached_kind, hkind, hkind']
    refine emitBlock_lockstep h (by simp [hcount, hcount']) base nodes hpool fun s s' hs => ?_
    rw [Node.cached_firstChild, Node.cached_firstChild, hfirst, hfirst']
    refine forSiblings_lockstep ?_ hchain hchain' (Nat.le_of_succ_le_succ hdepth)
      (Nat.le_of_succ_le_succ hdepth') hchain.length_le_turns hchain'.length_le_turns hs
    intro u u' key value node node' s s' hu hu' hsize hsize' hkey hkey' hs
    exact memberTurn_lockstep h hkey hkey' (ih hu hu' hsize hsize') _ hs
  | array elements =>
    obtain ⟨node, hnode, hkind, hcount, hfirst, hchain⟩ := ht.array
    obtain ⟨node', hnode', hkind', hcount', hfirst', hchain'⟩ := ht'.array
    refine Lockstep.bind (.of_yields (derefNode_yields hnode) (derefNode_yields hnode')
      (R := fun n n' => n = node.cached C ∧ n' = node'.cached C) ⟨rfl, rfl⟩) fun n n' hn => ?_
    rw [hn.1, hn.2, Node.cached_kind, Node.cached_kind, hkind, hkind']
    refine emitArray_lockstep h (by simp [hcount, hcount']) base nodes hpool
      fun offsetsOffset s s' hs => ?_
    rw [Node.cached_firstChild, Node.cached_firstChild, hfirst, hfirst']
    refine forSiblings_lockstep ?_ hchain hchain' (Nat.le_of_succ_le_succ hdepth)
      (Nat.le_of_succ_le_succ hdepth') hchain.length_le_turns hchain'.length_le_turns hs
    intro u u' key value node node' s s' hu hu' hsize hsize' hkey hkey' hs
    exact elementTurn_lockstep (ih hu hu' hsize hsize') _ hs

end

/-! ## The file -/

theorem Stored.of_hash {env env' : Env} {w : Writer} {trees : List NodeTree}
    {document : Document} (h : Stored env w trees document) (hhash : env'.hash64 = env.hash64) :
    Stored env' w trees document := by
  refine ⟨h.valid, h.closed, h.ends, h.siblings, h.nodup, ?_⟩
  rw [hhash]
  exact h.denotes

theorem storeOutput_lockstep (output : Bytes) (offset : UInt64) (bytes : Bytes) :
    Lockstep Eq (storeOutput output offset bytes) (storeOutput output offset bytes) := by
  unfold storeOutput
  split
  · exact .pure rfl
  · exact .throw _

theorem storeRootIndex_lockstep (entries : List Entry) (offset : UInt64) (output : Bytes) :
    Lockstep Eq (storeRootIndex entries offset output) (storeRootIndex entries offset output) := by
  induction entries generalizing offset output with
  | nil => exact .pure rfl
  | cons entry entries ih =>
    refine (storeOutput_lockstep output _ _).bind fun a a' heq => ?_
    subst heq
    exact ih _ _

theorem copyParts_lockstep (header : Header) (rootEntries : List Entry) (nodes strings : Bytes) :
    Lockstep Eq (copyParts header rootEntries nodes strings)
      (copyParts header rootEntries nodes strings) := by
  refine (storeOutput_lockstep _ _ _).bind fun a a' heq => ?_
  subst heq
  refine (storeRootIndex_lockstep _ _ a).bind fun b b' heq => ?_
  subst heq
  refine (storeOutput_lockstep b _ _).bind fun c c' heq => ?_
  subst heq
  exact storeOutput_lockstep c _ _

theorem applyFixups_lockstep (nodes : EncoderBuffer) {pool pool' : Pool}
    (hfixups : pool'.fixupOffsets = pool.fixupOffsets) (stringsOffset : UInt64) :
    Lockstep Eq (applyFixups nodes pool stringsOffset)
      (applyFixups nodes pool' stringsOffset) := by
  unfold applyFixups
  rw [hfixups]
  split
  · exact .pure rfl
  · exact .throw _

section

variable {env env' : Env} (h : Twins env env')

include h

theorem sealOutput_lockstep (header : Header) (output : Bytes) :
    Lockstep Eq (sealOutput env header output) (sealOutput env' header output) := by
  unfold sealOutput
  rw [h.hash]
  split
  · exact .throw _
  · refine (storeOutput_lockstep output _ _).bind fun a a' heq => ?_
    subst heq
    exact storeOutput_lockstep a _ _

theorem assemble_lockstep (rootCount : UInt64) (rootEntries : List Entry) (nodes : EncoderBuffer)
    {pool pool' : Pool} (hpool : SamePool env.hash64 pool pool') :
    Lockstep Eq (assemble env rootCount rootEntries nodes pool)
      (assemble env' rootCount rootEntries nodes pool') := by
  obtain ⟨⟨strings, workers, workers', hholds, hholds', hworkers⟩, hfixups⟩ := hpool
  unfold assemble
  rw [hholds.buffer, hholds'.buffer, hholds.entries, hholds'.entries]
  refine (applyFixups_lockstep nodes hfixups _).bind fun b b' heq => ?_
  subst heq
  refine (allocate_lockstep h).bind fun _ _ _ => ?_
  refine (copyParts_lockstep _ _ _ _).bind fun c c' heq => ?_
  subst heq
  exact sealOutput_lockstep h _ c

variable {w w' : Writer} {trees trees' : List NodeTree} {document : Document}
  (hw : Stored env w trees document) (hw' : Stored env w' trees' document)

include hw hw'

theorem emitRoots_lockstep {C : List Bytes} {heap heap' : List Node} {pool pool' : Pool}
    (hts : CollectedChain env.hash64 C w.nodes heap trees document)
    (hts' : CollectedChain env.hash64 C w'.nodes heap' trees' document)
    (hlength : heap.length = w.nodes.length) (hlength' : heap'.length = w'.nodes.length)
    (hpool : SamePool env.hash64 pool pool') :
    Lockstep Eq (emitRoots env w heap pool) (emitRoots env' w' heap' pool') := by
  have hcount : w'.rootCount = w.rootCount := by
    rw [hw.ends.count_eq, hw'.ends.count_eq, hw.denotes.length_eq, hw'.denotes.length_eq]
  have hdepth : (idsOf trees).length ≤ turnsOf heap := by
    have hle := length_le_of_nodup hw.nodup hw.siblings.lt_length
    rw [turnsOf]
    omega
  have hdepth' : (idsOf trees').length ≤ turnsOf heap' := by
    have hle := length_le_of_nodup hw'.nodup hw'.siblings.lt_length
    rw [turnsOf]
    omega
  unfold emitRoots
  rw [hcount, hw.ends.first_eq, hw'.ends.first_eq]
  refine Lockstep.bind (R := Eq) ?_ fun nodes nodes' heq => ?_
  · exact (allocate_lockstep h).bind fun _ _ _ => .pure rfl
  subst heq
  refine (allocateArray_lockstep h _).bind fun _ _ _ => ?_
  refine (emitMembers_lockstep h ?_).bind fun r r' hr => ?_
  · refine forSiblings_lockstep ?_ hts hts' hdepth hdepth' hts.length_le_turns
      hts'.length_le_turns ⟨rfl, hpool, rfl⟩
    intro u u' key value node node' s s' hu hu' hsize hsize' hkey hkey' hs
    exact memberTurn_lockstep h hkey hkey' (emitValue_lockstep h hu hu' hsize hsize') _ hs
  · simp only [hr.nodes, hr.result]
    exact assemble_lockstep h _ _ r.1 hr.pool

/-- The collection stores new offsets, or finds no room, whatever offsets there were. -/
theorem serialize_lockstep
    (hworkers : WorkersFit w.options.workerCount ↔ WorkersFit w'.options.workerCount) :
    (∃ heap heap' file, Yields (serializeToBuffer env w) (.ok (heap, file)) ∧
      Yields (serializeToBuffer env' w') (.ok (heap', file))) ∨
    ∃ e heap heap', Yields (serializeToBuffer env w) (.error (e, heap)) ∧
      Yields (serializeToBuffer env' w') (.error (e, heap')) := by
  have hright := hw'.of_hash h.hash
  by_cases hfit : UsesFit [] (membersUses document)
  · obtain ⟨heap, pool, hcollect, hpool, hnone, hchanged⟩ := collectRoots_yields h.left hw hfit
    obtain ⟨heap', pool', hcollect', hpool', hnone', hchanged'⟩ :=
      collectRoots_yields h.right hright hfit
    rw [h.hash] at hpool'
    have hroots := emitRoots_lockstep h hw hw'
      ⟨hw.denotes, ⟨none, hw.siblings⟩, hw.nodup, hchanged.inside⟩
      ⟨hw'.denotes, ⟨none, hw'.siblings⟩, hw'.nodup, hchanged'.inside⟩
      hchanged.length_eq hchanged'.length_eq
      ⟨⟨_, _, _, hpool, hpool', hworkers⟩, hnone'.trans hnone.symm⟩
    rcases hroots with ⟨file, _, hfile, hfile', rfl⟩ | ⟨e, he, he'⟩
    · exact .inl ⟨heap, heap', file,
        hcollect.bind ((leaving_yields heap hfile).bind (yields_pure _)),
        hcollect'.bind ((leaving_yields heap' hfile').bind (yields_pure _))⟩
    · exact .inr ⟨e, heap, heap', hcollect.bind (leaving_yields heap he).bind_error,
        hcollect'.bind (leaving_yields heap' he').bind_error⟩
  · obtain ⟨heap, hcollect⟩ := collectRoots_overflow h.left hw hfit
    obtain ⟨heap', hcollect'⟩ := collectRoots_overflow h.right hright hfit
    exact .inr ⟨_, heap, heap', hcollect.bind_error, hcollect'.bind_error⟩

end

/-! ## Runs -/

/-- What `finalize_to_buffer` gives its caller: the value returned, the buffer and its
size. `none`: it does not return. -/
def Writer.output (env : Env) (w : Writer) : Option (Bool × Option Bytes × Nat) :=
  (w.call env .finalizeToBuffer).map fun (a, _) => (a.success, a.buffer, a.size)

/-- The construction calls of a run. -/
def constructionOps (calls : List (Env × Call)) : List Op :=
  calls.filterMap fun (_, c) =>
    match c with
    | .op op => some op
    | .finalizeToBuffer | .finalizeToFile _ => none

/-- Two writers that hold what the same builder has built give the same output. -/
theorem output_eq {env env' : Env} (h : Twins env env') {w w' : Writer} {b : Builder}
    (hw : Tracks env w b) (hw' : Tracks env w' b)
    (hworkers : WorkersFit w.options.workerCount ↔ WorkersFit w'.options.workerCount) :
    w.output env = w'.output env' := by
  unfold Writer.output Writer.call finalizeToBuffer
  rw [hw.valid, hw'.valid]
  simp only [Bool.false_eq_true, if_false]
  cases hscope : w.currentScope with
  | some scope =>
    -- an open scope of one is an open scope of the other
    have hopen : w'.currentScope.isSome = true := by
      by_contra hclosed
      obtain ⟨hnil, -⟩ := hw'.stored (by simpa using hclosed)
      obtain ⟨opened, done, hcurrent, -, -, hmatches⟩ := hw.shape
      have hscopes := hmatches.scopes
      rw [hnil] at hscopes
      cases hscopes
      rw [hcurrent] at hscope
      cases hscope
    rw [if_pos hopen]
    rfl
  | none =>
    obtain ⟨hnil, trees, hstored⟩ := hw.stored hscope
    have hclosed : w'.currentScope = none := by
      obtain ⟨opened, done, hcurrent, -, -, hmatches⟩ := hw'.shape
      have hscopes := hmatches.scopes
      rw [hnil] at hscopes
      cases hscopes
      exact hcurrent
    obtain ⟨-, trees', hstored'⟩ := hw'.stored hclosed
    rw [hclosed]
    simp only [Option.isSome_none, Bool.false_eq_true, if_false]
    rcases serialize_lockstep h hstored hstored' hworkers with
      ⟨heap, heap', file, hyields, hyields'⟩ | ⟨e, heap, heap', hyields, hyields'⟩
    · obtain ⟨calls, hrun⟩ := hyields w.calls
      obtain ⟨calls', hrun'⟩ := hyields' w'.calls
      simp only [hrun, hrun', Option.map_some]
    · obtain ⟨calls, hrun⟩ := hyields w.calls
      obtain ⟨calls', hrun'⟩ := hyields' w'.calls
      simp only [hrun, hrun']
      cases e <;> rfl

/-- A finalize call leaves the writer as it was, but for offsets. -/
theorem call_refinalized {env : Env} {w w' : Writer} {c : Call} {a : Answer}
    (hc : c.isFinalize = true) (h : w.call env c = some (a, w')) : Refinalized w w' := by
  obtain ⟨hreturned, hrefused⟩ := finalizeToBuffer_keeps env w
  cases c with
  | op op => cases hc
  | finalizeToBuffer =>
    rw [Writer.call] at h
    split at h
    · cases h
      exact hreturned _ _ ‹_›
    · cases h
      exact hrefused _ ‹_›
    · cases h
    · cases h
  | finalizeToFile file =>
    rw [Writer.call, finalizeToFile] at h
    split at h
    · simp only [Option.map_map, Option.map_eq_some_iff] at h
      obtain ⟨stored, -, heq⟩ := h
      cases heq
      exact hreturned _ _ ‹_›
    · cases h
      exact hrefused _ ‹_›
    · cases h
    · cases h

/-- No call changes the options. -/
theorem perform_options {w w' : Writer} {calls : List (Env × Call)} {answers : List Answer}
    (h : w.perform calls = some (answers, w')) : w'.options = w.options := by
  induction calls generalizing w answers with
  | nil =>
    cases h
    rfl
  | cons c calls ih =>
    obtain ⟨env, c⟩ := c
    rw [Writer.perform] at h
    split at h
    · cases h
    rename_i a w₁ hcall
    obtain ⟨⟨answers', w₂⟩, hrest, heq⟩ := Option.map_eq_some_iff.mp h
    cases heq
    refine (ih hrest).trans ?_
    cases hc : c.isFinalize with
    | true => rw [(call_refinalized hc hcall).eq]
    | false =>
      cases c with
      | finalizeToBuffer => cases hc
      | finalizeToFile file => cases hc
      | op op =>
        obtain ⟨⟨success, w'⟩, hstep, heq⟩ := Option.map_eq_some_iff.mp hcall
        cases heq
        exact congrArg Prod.fst (step_settings env w op success _ hstep)

/-- Finalize calls between the construction calls change nothing of what is built. -/
theorem perform_tracks {hash64 : Bytes → UInt64} {w w' : Writer} {b : Builder}
    {calls : List (Env × Call)} {answers : List Answer} (hhash : ∀ c ∈ calls, c.1.hash64 = hash64)
    (h : Tracks (.succeeding hash64) w b) (hw : w.arenaUsed < 2 ^ 63)
    (hrun : w.perform calls = some (answers, w'))
    (hops : List.Forall₂ (fun c a => c.2.isFinalize = false → a.success = true) calls answers) :
    ∃ b', b.run (constructionOps calls) = some b' ∧ Tracks (.succeeding hash64) w' b' ∧
      w.arenaUsed + ((constructionOps calls).map Op.cost).sum < 2 ^ 63 := by
  induction calls generalizing w b answers with
  | nil =>
    cases hrun
    exact ⟨b, rfl, h, hw⟩
  | cons c calls ih =>
    obtain ⟨env, c⟩ := c
    rw [Writer.perform] at hrun
    split at hrun
    · cases hrun
    rename_i a w₁ hcall
    obtain ⟨⟨answers', w₂⟩, hrest, heq⟩ := Option.map_eq_some_iff.mp hrun
    cases heq
    obtain ⟨hop, hlater⟩ := List.forall₂_cons.mp hops
    have hhash₁ : env.hash64 = hash64 := hhash _ List.mem_cons_self
    have hhash₂ : ∀ c ∈ calls, c.1.hash64 = hash64 :=
      fun c hc => hhash c (List.mem_cons_of_mem _ hc)
    -- a finalize leaves nothing behind that the next calls see
    cases hc : c.isFinalize with
    | true =>
      have hfinal := call_refinalized hc hcall
      have hsame : constructionOps ((env, c) :: calls) = constructionOps calls := by
        cases c with
        | op op => cases hc
        | finalizeToBuffer => rfl
        | finalizeToFile file => rfl
      have hused : w₁.arenaUsed = w.arenaUsed := by rw [hfinal.eq]
      rw [hsame, ← hused]
      exact ih hhash₂ (h.refinalized hfinal) (hused ▸ hw) hrest hlater
    | false =>
      cases c with
      | finalizeToBuffer => cases hc
      | finalizeToFile file => cases hc
      | op op =>
        obtain ⟨⟨success, w'⟩, hstep, heq⟩ := Option.map_eq_some_iff.mp hcall
        cases heq
        have hsuccess : success = true := hop hc
        subst hsuccess
        have hhash₃ : env.hash64 = (Env.succeeding hash64).hash64 := hhash₁
        -- a call that has returned true is one the builder takes as well
        rcases step_follows (h.of_hash hhash₃) hw op with
          ⟨w₃, b₁, hstep', hb₁, htracks, hused, hlt⟩ | ⟨w₃, hstep', -, -⟩
        · rw [hstep] at hstep'
          cases hstep'
          obtain ⟨b', hb', htracks', hlt'⟩ :=
            ih hhash₂ (htracks.of_hash hhash₃.symm) hlt hrest hlater
          refine ⟨b', ?_, htracks', ?_⟩
          · change b.run (op :: constructionOps calls) = _
            simp only [Builder.run, hb₁, Option.bind_some, hb']
          · change w.arenaUsed + ((op :: constructionOps calls).map Op.cost).sum < 2 ^ 63
            rw [List.map_cons, List.sum_cons, ← Nat.add_assoc, ← hused]
            exact hlt'
        · rw [hstep] at hstep'
          cases hstep'

/-- After any run whose construction calls have succeeded, whatever finalize calls were
made in between and however they ended, the next `finalize_to_buffer` that is refused
nothing returns what the first one on a new writer does after the same construction calls. -/
theorem finalize_depends_on_document {hash64 : Bytes → UInt64} {options : Option WriterOptions}
    {calls : List (Env × Call)} {answers : List Answer} {w : Writer} {env fresh : Env}
    (hhash : ∀ c ∈ calls, c.1.hash64 = hash64)
    (hrun : (Writer.create options).perform calls = some (answers, w))
    (hops : List.Forall₂ (fun c a => c.2.isFinalize = false → a.success = true) calls answers)
    (henv : env.Succeeds) (hash_env : env.hash64 = hash64)
    (hfresh : fresh.Succeeds) (hash_fresh : fresh.hash64 = hash64) :
    ∃ w', (Writer.create options).runs fresh (constructionOps calls) = some w' ∧
      w.output env = w'.output fresh := by
  obtain ⟨b, hb, htracks, hroom⟩ :=
    perform_tracks hhash (create_tracks _ options) (by simp [Writer.create]) hrun hops
  obtain ⟨w', hruns, htracks'⟩ :=
    runs_of_builder hfresh.arena (create_tracks fresh options) hb hroom
  have hash_eq : fresh.hash64 = env.hash64 := hash_fresh.trans hash_env.symm
  have hoptions : w.options = w'.options := (perform_options hrun).trans (runs_options hruns).symm
  exact ⟨w', hruns, output_eq ⟨henv, hfresh, hash_eq⟩ (htracks.of_hash hash_env)
    (htracks'.of_hash hash_eq.symm) (by rw [hoptions])⟩

/-- A block with a string, a finalize call in the middle of it, and one after it that has stored
the offsets of the strings when it is refused the memory for the nodes. -/
def interrupted : List (Env × Call) :=
  [(.succeeding fun _ => 0, .op (.beginBlock (.data [0x62]))),
    (.succeeding fun _ => 0, .finalizeToBuffer),
    (.succeeding fun _ => 0, .op (.setString (.data [0x6B]) [0x76])),
    (.succeeding fun _ => 0, .op .endBlock),
    (.refusing (fun _ => 0) 3, .finalizeToBuffer)]

theorem finalize_depends_on_document_interrupted :
    ∃ w w', (Writer.create none).perform interrupted = some ([.plain true .ok,
        .plain false .unclosedScope, .plain true .unclosedScope, .plain true .unclosedScope,
        .plain false .oom], w) ∧
      (Writer.create none).runs (.succeeding fun _ => 0) (constructionOps interrupted) = some w' ∧
      w.output (.succeeding fun _ => 0) = w'.output (.succeeding fun _ => 0) ∧
      (w.output (.succeeding fun _ => 0)).map (fun r => (r.1, r.2.2)) = some (true, 260) := by
  have hhash : ∀ c ∈ interrupted, c.1.hash64 = fun _ => 0 := by
    intro c hc
    simp only [interrupted, List.mem_cons, List.not_mem_nil, or_false] at hc
    rcases hc with rfl | rfl | rfl | rfl | rfl <;> rfl
  have hanswers : ((Writer.create none).perform interrupted).map Prod.fst = some [
      .plain true .ok, .plain false .unclosedScope, .plain true .unclosedScope,
      .plain true .unclosedScope, .plain false .oom] := by decide +kernel
  obtain ⟨⟨answers, w⟩, hrun, rfl⟩ := Option.map_eq_some_iff.mp hanswers
  obtain ⟨w', hruns, houtput⟩ := finalize_depends_on_document hhash hrun
    (by simp [interrupted, Call.isFinalize, Answer.plain]) (Env.succeeding_succeeds _) rfl
    (Env.succeeding_succeeds _) rfl
  refine ⟨w, w', hrun, hruns, houtput, ?_⟩
  -- the run without finalize calls gives its file
  have hfresh : ((Writer.create none).runs (.succeeding fun _ => 0)
      (constructionOps interrupted)).bind (fun w =>
        (w.output (.succeeding fun _ => 0)).map fun r => (r.1, r.2.2)) = some (true, 260) := by
    decide +kernel
  rw [hruns, Option.bind_some] at hfresh
  rw [houtput, hfresh]

/-! ## Workers -/

/-- The writer with another number of workers. -/
def Writer.withWorkers (w : Writer) (workerCount : UInt64) : Writer :=
  { w with options := { w.options with workerCount } }

/-- The number of workers is not part of what a writer holds. -/
theorem Tracks.withWorkers {env : Env} {w : Writer} {b : Builder} (h : Tracks env w b)
    (workerCount : UInt64) : Tracks env (w.withWorkers workerCount) b := by
  obtain ⟨hvalid, opened, done, hscope, hspine, hnodup, hmatches⟩ := h
  refine ⟨hvalid, opened, done, hscope, ?_, hnodup, hmatches⟩
  exact hspine.congr ⟨rfl, rfl, rfl⟩ fun _ _ => rfl

/-- The output is a file exactly when a file is returned. -/
theorem output_eq_some {env : Env} {w : Writer} {file : Bytes} :
    (∃ size, w.output env = some (true, some file, size)) ↔
      ∃ w', finalizeToBuffer env w = .returned file w' := by
  unfold Writer.output
  rw [Writer.call]
  cases hfinalized : finalizeToBuffer env w with
  | returned buffer v =>
    constructor
    · rintro ⟨size, h⟩
      cases h
      exact ⟨v, rfl⟩
    · rintro ⟨w', h⟩
      cases h
      exact ⟨_, rfl⟩
  | refused v =>
    constructor
    · rintro ⟨size, h⟩
      cases h
    · rintro ⟨w', h⟩
      cases h
  | faulted =>
    constructor
    · rintro ⟨size, h⟩
      cases h
    · rintro ⟨w', h⟩
      cases h
  | divergent =>
    constructor
    · rintro ⟨size, h⟩
      cases h
    · rintro ⟨w', h⟩
      cases h

/-- With this number of workers a small document gives what it gives without workers exactly
when its entries can be sorted. -/
theorem output_withWorkers_iff {env : Env} (henv : env.Succeeds) {w : Writer}
    {trees : List NodeTree} {document : Document} (h : Stored env w trees document)
    (hsize : documentSize env.hash64 document < 2 ^ 32) (workerCount : UInt64) :
    (w.withWorkers workerCount).output env = (w.withWorkers 0).output env ↔
      document.Sortable workerCount := by
  have hstored : ∀ workers, Stored env (w.withWorkers workers) trees document :=
    fun workers => ⟨h.valid, h.closed, h.ends, h.siblings, h.nodup, h.denotes⟩
  have hzero : WorkersFit 0 := by decide
  have hserial := finalizeToBuffer_returned henv (hstored 0)
    (encodable_of_size hsize (hzero.document document))
  obtain ⟨size, houtput⟩ := output_eq_some.mpr hserial
  constructor
  · intro heq
    obtain ⟨w', hreturned⟩ := output_eq_some.mp ⟨size, heq.trans houtput⟩
    have harrays := membersNarrow_arrays (narrow_and_fits_of_size hsize).1.2
    exact (finalizeToBuffer_file (hstored workerCount) harrays hreturned).1.sortable
  · intro hsortable
    obtain ⟨v, hreturned⟩ := finalizeToBuffer_returned henv (hstored workerCount)
      (encodable_of_size hsize hsortable)
    obtain ⟨v', hreturned'⟩ := hserial
    unfold Writer.output
    rw [Writer.call, Writer.call, hreturned, hreturned']
    rfl

/-- Insertion sort and the serial radix sort leave the stable sort by hash of any list, and
`pending_sort` leaves it exactly where it can sort so many entries with so many workers. The
workers of a parallel pass store to every place once, so that the order in which their stores
reach memory does not matter. The finalized bytes are the same with any number of workers that
fits, and for a small document with exactly those that can sort its entries. -/
theorem sorts_agree_iff {env : Env} (henv : env.Succeeds) :
    (∀ entries, ∃ sorted, IsHashSort entries sorted ∧
      insertionLoop entries 1 (entries.length - 1) = sorted ∧
      Yields (radixSortSerial env entries) (.ok sorted) ∧
      (∀ workerCount, 0 < workerCount.toNat →
        (Yields (radixSortParallel env entries workerCount) (.ok sorted) ↔
          WorkersFit workerCount)) ∧
      ∀ workerCount, Yields (pendingSort env entries workerCount) (.ok sorted) ↔
        Sortable workerCount entries.length) ∧
    (∀ (shift : UInt64) (source : List Entry) (workerCount : Nat), 0 < workerCount →
      ((((List.range workerCount).map (workerStores shift source workerCount)).flatten).map
        Prod.fst).Perm (List.range source.length) ∧
      ∀ destination stores, destination.length = source.length →
        stores.Perm ((List.range workerCount).map
          (workerStores shift source workerCount)).flatten →
        applyStores destination stores = radixPass shift source destination) ∧
    ∀ options ops w, (Writer.create options).runs env ops = some w →
      (∀ workerCount workerCount', WorkersFit workerCount → WorkersFit workerCount' →
        (w.withWorkers workerCount).output env = (w.withWorkers workerCount').output env) ∧
      (w.currentScope = none → ∃ document : Document,
        Builder.empty.run ops = some ⟨document, []⟩ ∧
        (documentSize env.hash64 document < 2 ^ 32 → ∀ workerCount,
          ((w.withWorkers workerCount).output env = (w.withWorkers 0).output env ↔
            document.Sortable workerCount))) := by
  refine ⟨fun entries => ?_, fun shift source workerCount hcount => ?_,
    fun options ops w hrun => ?_⟩
  · -- a sort that strays has no result
    have hno : ∀ {m : AllocM (List Entry)} {sorted : List Entry}, Yields m (.error .fault) →
        ¬Yields m (.ok sorted) := by
      intro m sorted hfault hok
      obtain ⟨_, hfault⟩ := hfault ⟨0, 0⟩
      obtain ⟨_, hok⟩ := hok ⟨0, 0⟩
      cases hfault.symm.trans hok
    refine ⟨stableSort Entry.hash entries, isHashSort_stableSort entries, insertionLoop_eq entries,
      radixSortSerial_yields henv entries, fun workerCount hcount => ⟨?_, ?_⟩,
      fun workerCount => ⟨?_, ?_⟩⟩
    · intro hyields
      by_contra hwrap
      exact hno (radixSortParallel_wrapped henv entries hwrap) hyields
    · exact radixSortParallel_yields henv entries hcount
    · intro hyields
      by_contra hwrap
      exact hno (pendingSort_wrapped henv hwrap) hyields
    · exact pendingSort_yields henv
  · exact ⟨workerStores_positions shift source hcount, fun destination stores hlen horder =>
      applyStores_workers shift hcount hlen horder⟩
  · obtain ⟨⟨document, scopes⟩, hb, htracks, -, -⟩ :=
      runs_tracks (create_tracks env options) (by simp [Writer.create]) hrun
    refine ⟨fun workerCount workerCount' hfit hfit' => ?_, fun hclosed => ?_⟩
    · exact output_eq ⟨henv, henv, rfl⟩ (htracks.withWorkers workerCount)
        (htracks.withWorkers workerCount') ⟨fun _ => hfit', fun _ => hfit⟩
    · obtain ⟨rfl, trees, hstored⟩ := htracks.stored hclosed
      exact ⟨document, hb, fun hsize => output_withWorkers_iff henv hstored hsize⟩

/-- Three workers for four entries of one hash and a smaller one. -/
theorem sorts_agree_iff_remainder :
    ∃ sorted, IsHashSort [⟨9, 1, 0, 0⟩, ⟨9, 2, 0, 0⟩, ⟨4, 3, 0, 0⟩, ⟨9, 4, 0, 0⟩] sorted ∧
      Yields (radixSortParallel (.succeeding fun _ => 0)
        [⟨9, 1, 0, 0⟩, ⟨9, 2, 0, 0⟩, ⟨4, 3, 0, 0⟩, ⟨9, 4, 0, 0⟩] 3) (.ok sorted) := by
  obtain ⟨sorted, hsorted, -, -, hparallel, -⟩ :=
    (sorts_agree_iff (Env.succeeding_succeeds fun _ => 0)).1
      [⟨9, 1, 0, 0⟩, ⟨9, 2, 0, 0⟩, ⟨4, 3, 0, 0⟩, ⟨9, 4, 0, 0⟩]
  exact ⟨sorted, hsorted, (hparallel 3 (by decide)).mpr (by decide)⟩

/-- 2^61 + 1 workers: the bytes asked for are those of one context, and the loop that creates
the threads stores to a second one. -/
theorem sorts_disagree : ¬∀ (env : Env) (entries : List Entry) (workerCount : UInt64),
    env.Succeeds → ∃ sorted, IsHashSort entries sorted ∧
      Yields (pendingSort env entries workerCount) (.ok sorted) := by
  intro h
  have henv : (Env.succeeding fun _ => 0).Succeeds := Env.succeeding_succeeds _
  obtain ⟨sorted, -, hyields⟩ :=
    h _ (List.replicate 10000 Entry.zero) 2305843009213693953 henv
  have hwrap : ¬Sortable 2305843009213693953 (List.replicate 10000 Entry.zero).length := by
    rw [List.length_replicate]
    decide
  obtain ⟨_, hfault⟩ := pendingSort_wrapped henv hwrap ⟨0, 0⟩
  obtain ⟨_, hok⟩ := hyields ⟨0, 0⟩
  cases hfault.symm.trans hok

end Hrbl
