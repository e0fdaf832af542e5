import Hrbl.Construction
import Hrbl.Encoder

/-!
# The strings of a document

`collect_strings` visits every node once and uses its key and its string. The strings a
pool holds after a list of uses, and when all of them fit, are properties of that list;
the walk over the nodes is proved to be one list of uses of the document.
-/

namespace Hrbl

open Lib NodeTree

variable {workerCount : UInt64}

/-! ## Loops over siblings -/

theorem derefNode_yields {heap : List Node} {id : NodeId} {node : Node}
    (h : heap[id]? = some node) : Yields (derefNode heap id) (.ok node) := by
  rw [derefNode, h]
  exact yields_pure _

theorem pointedBytes_yields {data : Bytes} (h : data.length ≤ lengthMax) :
    Yields (pointedBytes (cloned data) (UInt32.ofNat data.length)) (.ok data) := by
  rw [cloned]
  by_cases hempty : data.length = 0
  · rw [if_pos hempty, List.length_eq_zero_iff.mp hempty]
    exact yields_pure _
  · have hlen : (UInt32.ofNat data.length).toNat = data.length := by
      rw [UInt32.toNat_ofNat']
      exact Nat.mod_eq_of_lt (by simp only [lengthMax] at h; omega)
    have hfetch := (HasAt.self data).fetch (by omega)
    rw [if_neg hempty]
    simp only [pointedBytes, hlen, hfetch]
    exact yields_pure _

/-- A part that does not change the nodes. -/
theorem leaving_yields {α : Type} {m : AllocM α} {answer : Except Failure α} (heap : List Node)
    (h : Yields m answer) : Yields (leaving heap m) (answer.mapError fun e => (e, heap)) :=
  h.adapt _

section

variable {ε σ : Type} {deref : σ → NodeId → EStateM ε Calls Node} {diverges : σ → ε}
  {body : NodeId → Node → σ → EStateM ε Calls σ}

theorem forSiblings_none (turns : Nat) (s : σ) :
    Yields (forSiblings deref diverges body turns none s) (.ok s) := by
  cases turns <;> exact yields_pure s

/-- One turn, and the rest of the chain. -/
theorem forSiblings_some {turns : Nat} {id : NodeId} {s s' : σ} {node node' : Node}
    {answer : Except ε σ} (hnode : Yields (deref s id) (.ok node))
    (hbody : Yields (body id node s) (.ok s')) (hnode' : Yields (deref s' id) (.ok node'))
    (hrest : Yields (forSiblings deref diverges body turns node'.nextSibling s') answer) :
    Yields (forSiblings deref diverges body (turns + 1) (some id) s) answer :=
  hnode.bind (hbody.bind (hnode'.bind hrest))

/-- A turn that fails ends the loop. -/
theorem forSiblings_error {turns : Nat} {id : NodeId} {s : σ} {node : Node} {e : ε}
    (hnode : Yields (deref s id) (.ok node)) (hbody : Yields (body id node s) (.error e)) :
    Yields (forSiblings deref diverges body (turns + 1) (some id) s) (.error e) :=
  hnode.bind hbody.bind_error

end

/-- A node is read. -/
theorem leaving_deref {heap : List Node} {id : NodeId} {node : Node}
    (h : heap[id]? = some node) : Yields (leaving heap (derefNode heap id)) (.ok node) :=
  leaving_yields heap (derefNode_yields h)

/-- The pool has no room for a string that is to be collected. -/
def Overflows (walk : CollectM (List Node × Pool)) : Prop :=
  ∃ heap, Yields walk (.error (.error .stringPoolOverflow4GB, heap))

/-! ## Changed nodes -/

/-- The nodes with these indices have changed by `f`, and no others. -/
structure Changed (f : Node → Node) (ids : List NodeId) (heap heap' : List Node) : Prop where
  length_eq : heap'.length = heap.length
  inside : ∀ id ∈ ids, heap'[id]? = heap[id]?.map f
  outside : ∀ id, id ∉ ids → heap'[id]? = heap[id]?

theorem Changed.refl (f : Node → Node) (heap : List Node) : Changed f [] heap heap :=
  ⟨rfl, fun _ h => absurd h List.not_mem_nil, fun _ _ => rfl⟩

/-- A store to a node, which need not be `f` on other nodes. -/
theorem Changed.modify {f g : Node → Node} {id : NodeId} {heap : List Node} {node : Node}
    (hnode : heap[id]? = some node) (h : g node = f node) :
    Changed f [id] heap (heap.modify id g) where
  length_eq := List.length_modify ..
  inside i hi := by
    rw [List.mem_singleton.mp hi, List.getElem?_modify_eq, hnode, Option.map_some, ← h]
    rfl
  outside i hi := List.getElem?_modify_ne _ _ fun heq => hi (List.mem_singleton.mpr heq.symm)

theorem Changed.append {f : Node → Node} {ids ids' : List NodeId} {heap heap' heap'' : List Node}
    (h : Changed f ids heap heap') (h' : Changed f ids' heap' heap'')
    (hdisjoint : ids.Disjoint ids') : Changed f (ids ++ ids') heap heap'' where
  length_eq := h'.length_eq.trans h.length_eq
  inside id hid := by
    rcases List.mem_append.mp hid with hid | hid
    · rw [h'.outside id fun hin => hdisjoint hid hin, h.inside id hid]
    · rw [h'.inside id hid, h.outside id fun hin => hdisjoint hin hid]
  outside id hid := by
    rw [List.mem_append, not_or] at hid
    rw [h'.outside id hid.2, h.outside id hid.1]

/-- Two changes of one node. -/
theorem Changed.comp {f g : Node → Node} {id : NodeId} {heap heap' heap'' : List Node}
    (h : Changed f [id] heap heap') (h' : Changed g [id] heap' heap'') :
    Changed (g ∘ f) [id] heap heap'' where
  length_eq := h'.length_eq.trans h.length_eq
  inside i hi := by rw [h'.inside i hi, h.inside i hi, Option.map_map]
  outside i hi := by rw [h'.outside i hi, h.outside i hi]

/-- A change that leaves the node as it is. -/
theorem Changed.of_fixed {f : Node → Node} {id : NodeId} {heap : List Node} {node : Node}
    (hnode : heap[id]? = some node) (hfixed : f node = node) : Changed f [id] heap heap where
  length_eq := rfl
  inside i hi := by rw [List.mem_singleton.mp hi, hnode, Option.map_some, hfixed]
  outside _ _ := rfl

/-! ## Cached offsets -/

/-- A node whose key has its offset among the strings. -/
def Node.cacheKey (S : List Bytes) (n : Node) : Node :=
  match n.keyData with
  | none => n
  | some key => { n with cachedKeyPoolOffset := UInt32.ofNat (poolOffsetOf S key) }

/-- A node whose string has its offset among the strings. -/
def Node.cacheString (S : List Bytes) (n : Node) : Node :=
  if n.kind = .string then
    { n with cachedStringPoolOffset := UInt32.ofNat (poolOffsetOf S (n.stringData.getD [])) }
  else n

/-- A node as `collect_strings` leaves it. -/
def Node.cached (S : List Bytes) (n : Node) : Node := (n.cacheKey S).cacheString S

@[simp] theorem Node.cacheKey_kind (S : List Bytes) (n : Node) :
    (n.cacheKey S).kind = n.kind := by
  unfold Node.cacheKey
  split <;> rfl

@[simp] theorem Node.cacheKey_stringData (S : List Bytes) (n : Node) :
    (n.cacheKey S).stringData = n.stringData := by
  unfold Node.cacheKey
  split <;> rfl

/-- The two offsets are all that changes. -/
theorem Node.cached_eq (S : List Bytes) (n : Node) :
    n.cached S = { n with
      cachedKeyPoolOffset := match n.keyData with
        | none => n.cachedKeyPoolOffset
        | some key => UInt32.ofNat (poolOffsetOf S key)
      cachedStringPoolOffset := if n.kind = .string then
          UInt32.ofNat (poolOffsetOf S (n.stringData.getD []))
        else n.cachedStringPoolOffset } := by
  obtain ⟨kind, _, keyData, _, _, _, _, _, _, _, _, _, _, _, _, _, _⟩ := n
  unfold Node.cached Node.cacheString Node.cacheKey
  cases keyData <;> by_cases hkind : kind = .string <;> simp [hkind]

@[simp] theorem Node.cached_nextSibling (S : List Bytes) (n : Node) :
    (n.cached S).nextSibling = n.nextSibling := by rw [Node.cached_eq]

@[simp] theorem Node.cached_kind (S : List Bytes) (n : Node) : (n.cached S).kind = n.kind := by
  rw [Node.cached_eq]

@[simp] theorem Node.cached_keyData (S : List Bytes) (n : Node) :
    (n.cached S).keyData = n.keyData := by rw [Node.cached_eq]

@[simp] theorem Node.cached_keyLength (S : List Bytes) (n : Node) :
    (n.cached S).keyLength = n.keyLength := by rw [Node.cached_eq]

@[simp] theorem Node.cached_keyHash64 (S : List Bytes) (n : Node) :
    (n.cached S).keyHash64 = n.keyHash64 := by rw [Node.cached_eq]

@[simp] theorem Node.cached_childCount (S : List Bytes) (n : Node) :
    (n.cached S).childCount = n.childCount := by rw [Node.cached_eq]

@[simp] theorem Node.cached_firstChild (S : List Bytes) (n : Node) :
    (n.cached S).firstChild = n.firstChild := by rw [Node.cached_eq]

theorem Node.HoldsPayload.cached {n : Node} {s : Scalar} (h : n.HoldsPayload s)
    (S : List Bytes) : (n.cached S).HoldsPayload s := by
  rw [Node.cached_eq]
  cases s <;> exact h

theorem cloned_getD (data : Bytes) : (cloned data).getD [] = data := by
  unfold cloned
  split
  · rename_i hempty
    exact (List.length_eq_zero_iff.mp hempty).symm
  · rfl

/-- The offset of a string is in its node. -/
theorem Node.cached_string {n : Node} {value : Bytes} (hkind : n.kind = .string)
    (h : n.HoldsPayload (.string value)) (S : List Bytes) :
    (n.cached S).cachedStringPoolOffset = UInt32.ofNat (poolOffsetOf S value) := by
  rw [Node.cached_eq]
  simp only [if_pos hkind, h.2.1, cloned_getD]

/-- The offset of a key is in its node, unless it is the empty one. -/
theorem Node.cached_key {hash64 : Bytes → UInt64} {n : Node} {key : Bytes}
    (h : n.HoldsKey hash64 key) (S : List Bytes) :
    (n.cached S).cachedKeyPoolOffset =
      if key = [] then poolOffsetNone else UInt32.ofNat (poolOffsetOf S key) := by
  rw [Node.cached_eq]
  simp only [h.data, cloned, List.length_eq_zero_iff]
  by_cases hempty : key = []
  · simp only [if_pos hempty, h.uncached hempty]
  · simp only [if_neg hempty]

section

variable {env : Env} {heap : List Node} {pool : Pool} {strings S : List Bytes}

/-- A use of a string, as the invariants see it. -/
theorem intern_use (henv : env.Succeeds) (hpool : PoolHolds env.hash64 workerCount strings pool)
    {data : Bytes} (hdata : data.length ≤ lengthMax) (hfit : UsesFit strings [data])
    (hS : internAll strings [data] <+: S) :
    ∃ pool', Yields (internWithHash env pool data (env.hash64 data))
        (.ok (pool', UInt32.ofNat (poolOffsetOf S data))) ∧
      PoolHolds env.hash64 workerCount (internAll strings [data]) pool' ∧
      pool'.fixupOffsets = pool.fixupOffsets := by
  obtain ⟨pool', hyields, hpool', hfixups⟩ := internWithHash_yields henv hpool hdata
    (by rw [hpool.buffer]; exact hfit.1)
  refine ⟨pool', ?_, hpool', hfixups⟩
  rw [ poolOffsetOf_prefix hS (mem_internString strings data)]
  exact hyields

theorem intern_overflow (hpool : PoolHolds env.hash64 workerCount strings pool) {data : Bytes}
    (hdata : data.length ≤ lengthMax) (hfit : ¬UsesFit strings [data]) :
    Yields (internWithHash env pool data (env.hash64 data))
      (.error (.error .stringPoolOverflow4GB)) := by
  have hnot : ¬(data ∉ strings → (poolBytes strings).length ≤ lengthMax) :=
    fun h => hfit ⟨h, trivial⟩
  rw [Classical.not_imp, Nat.not_le] at hnot
  exact internWithHash_overflow hpool hdata hnot.1 (by rw [hpool.buffer]; exact hnot.2)

theorem collectKey_yields (henv : env.Succeeds) {id : NodeId} {node : Node} {key : Bytes}
    (hnode : heap[id]? = some node) (hkey : node.HoldsKey env.hash64 key)
    (hpool : PoolHolds env.hash64 workerCount strings pool) (hfit : UsesFit strings (keyUses key))
    (hS : internAll strings (keyUses key) <+: S) :
    ∃ heap' pool', Yields (collectKey env id node heap pool) (.ok (heap', pool')) ∧
      PoolHolds env.hash64 workerCount (internAll strings (keyUses key)) pool' ∧
      pool'.fixupOffsets = pool.fixupOffsets ∧
      Changed (Node.cacheKey S) [id] heap heap' := by
  have hdata := hkey.data
  by_cases hempty : key = []
  · subst hempty
    refine ⟨heap, pool, ?_, hpool, rfl, Changed.of_fixed hnode ?_⟩
    · rw [collectKey, hdata]
      exact yields_pure _
    · rw [Node.cacheKey, hdata]
      rfl
  · have hclone : node.keyData = some key :=
      hdata.trans (if_neg fun h => hempty (List.length_eq_zero_iff.mp h))
    have huses : keyUses key = [key] := if_neg hempty
    rw [huses] at hfit hS ⊢
    obtain ⟨pool', hyields, hpool', hfixups⟩ := intern_use henv hpool hkey.length_le hfit hS
    refine ⟨heap.modify id fun n =>
        { n with cachedKeyPoolOffset := UInt32.ofNat (poolOffsetOf S key) },
      pool', ?_, hpool', hfixups, Changed.modify hnode (by rw [Node.cacheKey, hclone])⟩
    rw [collectKey, hclone]
    simp only
    rw [← hclone, hdata, hkey.length, hkey.hash hempty]
    exact (leaving_yields heap (pointedBytes_yields hkey.length_le)).bind
      ((leaving_yields heap hyields).bind (yields_pure _))

theorem collectKey_overflow {id : NodeId} {node : Node} {key : Bytes}
    (hkey : node.HoldsKey env.hash64 key) (hpool : PoolHolds env.hash64 workerCount strings pool)
    (hfit : ¬UsesFit strings (keyUses key)) :
    Overflows (collectKey env id node heap pool) := by
  have hempty : key ≠ [] := by
    rintro rfl
    exact hfit trivial
  have hclone : node.keyData = some key :=
    hkey.data.trans (if_neg fun h => hempty (List.length_eq_zero_iff.mp h))
  rw [keyUses, if_neg hempty] at hfit
  rw [collectKey, hclone]
  simp only
  rw [← hclone, hkey.data, hkey.length, hkey.hash hempty]
  exact ⟨heap, (leaving_yields heap (pointedBytes_yields hkey.length_le)).bind
    (leaving_yields heap (intern_overflow hpool hkey.length_le hfit)).bind_error⟩

/-- What `collect_strings` uses of a node besides its key. -/
structure OwnUses (node : Node) (uses : List Bytes) : Prop where
  other : node.kind ≠ .string → uses = []
  string : node.kind = .string → ∃ s, node.HoldsPayload (.string s) ∧ uses = [s]

theorem collectValue_yields (henv : env.Succeeds) {id : NodeId} {node : Node}
    {uses : List Bytes} (hnode : heap[id]? = some (node.cacheKey S)) (hown : OwnUses node uses)
    (hpool : PoolHolds env.hash64 workerCount strings pool) (hfit : UsesFit strings uses)
    (hS : internAll strings uses <+: S) :
    ∃ heap' pool', Yields (collectValue env id node heap pool) (.ok (heap', pool')) ∧
      PoolHolds env.hash64 workerCount (internAll strings uses) pool' ∧
      pool'.fixupOffsets = pool.fixupOffsets ∧
      Changed (Node.cacheString S) [id] heap heap' := by
  by_cases hkind : node.kind = .string
  · obtain ⟨s, ⟨hlen, hclone, hlength⟩, rfl⟩ := hown.string hkind
    obtain ⟨pool', hyields, hpool', hfixups⟩ := intern_use henv hpool hlen hfit hS
    have hdata : node.stringData.getD [] = s := by rw [hclone, cloned_getD]
    refine ⟨heap.modify id fun n =>
        { n with cachedStringPoolOffset := UInt32.ofNat (poolOffsetOf S s) },
      pool', ?_, hpool', hfixups,
      Changed.modify hnode (by
        rw [Node.cacheString, Node.cacheKey_kind, if_pos hkind, Node.cacheKey_stringData, hdata])⟩
    rw [collectValue, if_pos hkind, hclone, hlength]
    exact (leaving_yields heap (pointedBytes_yields hlen)).bind
      ((leaving_yields heap hyields).bind (yields_pure _))
  · have hnone := hown.other hkind
    subst hnone
    refine ⟨heap, pool, ?_, hpool, rfl,
      Changed.of_fixed hnode (by rw [Node.cacheString, Node.cacheKey_kind, if_neg hkind])⟩
    rw [collectValue, if_neg hkind]
    exact yields_pure _

theorem collectValue_overflow {id : NodeId} {node : Node} {uses : List Bytes}
    (hown : OwnUses node uses) (hpool : PoolHolds env.hash64 workerCount strings pool)
    (hfit : ¬UsesFit strings uses) :
    Overflows (collectValue env id node heap pool) := by
  by_cases hkind : node.kind = .string
  · obtain ⟨s, ⟨hlen, hclone, hlength⟩, rfl⟩ := hown.string hkind
    rw [collectValue, if_pos hkind, hclone, hlength]
    exact ⟨heap, (leaving_yields heap (pointedBytes_yields hlen)).bind
      (leaving_yields heap (intern_overflow hpool hlen hfit)).bind_error⟩
  · rw [hown.other hkind] at hfit
    exact absurd trivial hfit

end

/-! ## The walk -/

theorem ownUses_of_scalar {node : Node} {s : Scalar} (hkind : node.kind = s.kind)
    (hpayload : node.HoldsPayload s) : OwnUses node s.uses := by
  cases s with
  | string value => exact ⟨fun hne => absurd hkind hne, fun _ => ⟨value, hpayload, rfl⟩⟩
  | bool value =>
    refine ⟨fun _ => rfl, fun h => ?_⟩
    rw [hkind] at h
    cases value <;> cases h
  | _ =>
    refine ⟨fun _ => rfl, fun h => ?_⟩
    rw [hkind] at h
    cases h

theorem ownUses_of_container {node : Node} (kind : ScopeKind) (hkind : node.kind = kind.kind) :
    OwnUses node [] := by
  refine ⟨fun _ => rfl, fun h => ?_⟩
  rw [hkind] at h
  cases kind <;> cases h

/-- A chain of distinct nodes is not longer than the arena. -/
theorem length_le_of_nodup {heap : List Node} {ids : List NodeId} (hnodup : ids.Nodup)
    (hlt : ∀ id ∈ ids, id < heap.length) : ids.length ≤ heap.length := by
  have hsub : ids ⊆ List.range heap.length := fun id hid => List.mem_range.mpr (hlt id hid)
  have hle := (hnodup.subperm hsub).length_le
  rwa [List.length_range] at hle

theorem length_le_idsOf (ts : List NodeTree) : ts.length ≤ (idsOf ts).length := by
  induction ts with
  | nil => exact Nat.le_refl _
  | cons t ts ih =>
    cases t
    rw [idsOf, List.length_append, ids, List.length_cons, List.length_cons]
    omega

/-- There are turns for all siblings. -/
theorem Siblings.length_le_turns {heap : List Node} {parent stop : Option NodeId}
    {ts : List NodeTree} (h : Siblings heap parent stop ts) (hnodup : (idsOf ts).Nodup) :
    ts.length ≤ turnsOf heap := by
  have hle := length_le_of_nodup hnodup h.lt_length
  have hlen := length_le_idsOf ts
  rw [turnsOf]
  omega

/-- What the walk does at a node of a value: its key, its own string, its children. -/
theorem NodeTree.Denotes.parts {hash64 : Bytes → UInt64} {heap : List Node} {id : NodeId}
    {ts : List NodeTree} {key : Bytes} {value : Value}
    (h : (NodeTree.mk id ts).Denotes hash64 heap key value) :
    ∃ node own members, heap[id]? = some node ∧ node.HoldsKey hash64 key ∧ OwnUses node own ∧
      DenotesMembers hash64 heap ts members ∧ valueUses value = own ++ membersUses members := by
  cases h with
  | scalar hnode hkey hkind hpayload =>
    exact ⟨_, _, [], hnode, hkey, ownUses_of_scalar hkind hpayload, .nil,
      (List.append_nil _).symm⟩
  | block hnode hkey hkind hmembers =>
    exact ⟨_, [], _, hnode, hkey, ownUses_of_container .block hkind, hmembers, rfl⟩
  | array hnode hkey hkind helements =>
    exact ⟨_, [], _, hnode, hkey, ownUses_of_container .array hkind, helements,
      (membersUses_elements _).symm⟩

theorem LinkedAt.root {nodes : List Node} {parent next : Option NodeId} {t : NodeTree}
    (h : LinkedAt nodes parent next t) :
    ∃ node, nodes[t.nodeId]? = some node ∧ node.nextSibling = next := by
  cases t
  obtain ⟨node, hnode, -, hnext, -⟩ := h
  exact ⟨node, hnode, hnext⟩

/-- A chain of nodes that have not changed. -/
theorem Changed.keeps {f : Node → Node} {ids : List NodeId} {heap heap' : List Node}
    {hash64 : Bytes → UInt64} {parent : Option NodeId} {ts : List NodeTree}
    {members : List (Bytes × Value)} (h : Changed f ids heap heap')
    (hdisjoint : ids.Disjoint (idsOf ts)) (hdenotes : DenotesMembers hash64 heap ts members)
    (hsiblings : Siblings heap parent none ts) :
    DenotesMembers hash64 heap' ts members ∧ Siblings heap' parent none ts := by
  have hsame : ∀ id ∈ idsOf ts, heap'[id]? = heap[id]? :=
    fun id hid => h.outside id fun hin => hdisjoint hin hid
  exact ⟨hdenotes.congr fun id hid => by rw [SameContent, hsame id hid], hsiblings.congr hsame⟩

/-- The walk leaves the strings in the pool and their offsets in the nodes. -/
def Collects (env : Env) (workerCount : UInt64) (S strings uses : List Bytes) (ids : List NodeId)
    (heap : List Node) (pool : Pool) (walk : CollectM (List Node × Pool)) : Prop :=
  ∃ heap' pool', Yields walk (.ok (heap', pool')) ∧
    PoolHolds env.hash64 workerCount (internAll strings uses) pool' ∧
    pool'.fixupOffsets = pool.fixupOffsets ∧ Changed (Node.cached S) ids heap heap'

/-- The key and the string of one node. -/
theorem collectOwn_yields {env : Env} (henv : env.Succeeds) {S : List Bytes} {heap : List Node}
    {pool : Pool} {strings own : List Bytes} {id : NodeId}
    {node : Node} {key : Bytes} (hnode : heap[id]? = some node)
    (hkey : node.HoldsKey env.hash64 key) (hown : OwnUses node own)
    (hpool : PoolHolds env.hash64 workerCount strings pool)
    (hfit : UsesFit strings (keyUses key ++ own))
    (hS : internAll strings (keyUses key ++ own) <+: S) :
    Collects env workerCount S strings (keyUses key ++ own) [id] heap pool
      (collectOwn env id node heap pool) := by
  rw [usesFit_append] at hfit
  rw [internAll_append] at hS
  obtain ⟨heap₁, pool₁, h₁, hpool₁, hfix₁, hch₁⟩ := collectKey_yields henv hnode hkey hpool hfit.1
    ((prefix_internAll _ own).trans hS)
  have hnode₁ := hch₁.inside id (List.mem_singleton.mpr rfl)
  rw [hnode, Option.map_some] at hnode₁
  obtain ⟨heap₂, pool₂, h₂, hpool₂, hfix₂, hch₂⟩ := collectValue_yields henv hnode₁ hown hpool₁
    hfit.2 hS
  refine ⟨heap₂, pool₂, h₁.bind h₂, ?_, hfix₂.trans hfix₁, hch₁.comp hch₂⟩
  rwa [internAll_append]

mutual

/-- The walk over the nodes of a value. -/
theorem collectStrings_yields {env : Env} (henv : env.Succeeds) {S : List Bytes} :
    ∀ {t : NodeTree} {key : Bytes} {value : Value}
    {heap : List Node} {pool : Pool} {strings : List Bytes} {depth : Nat}
    {parent next : Option NodeId}, t.Denotes env.hash64 heap key value →
    LinkedAt heap parent next t → t.ids.Nodup → t.ids.length ≤ depth →
    PoolHolds env.hash64 workerCount strings pool →
    UsesFit strings (keyUses key ++ valueUses value) →
    internAll strings (keyUses key ++ valueUses value) <+: S →
    Collects env workerCount S strings (keyUses key ++ valueUses value) t.ids heap pool
      (collectStrings env depth t.nodeId (heap, pool))
  | .mk id ts, key, value, heap, pool, strings, 0, _, _, _, _, _, hdepth, _, _, _ => by
    rw [ids, List.length_cons] at hdepth
    omega
  | .mk id ts, key, value, heap, pool, strings, depth + 1, _, _, hdenotes, hlinked, hnodup,
      hdepth, hpool, hfit, hS => by
    obtain ⟨node, own, members, hnode, hkey, hown, hmembers, huses⟩ := hdenotes.parts
    obtain ⟨node', hnode', -, -, hends, hsiblings⟩ := hlinked
    obtain rfl : node = node' := Option.some.inj (hnode.symm.trans hnode')
    rw [ids, List.nodup_cons] at hnodup
    rw [ids, List.length_cons] at hdepth
    rw [huses, ← List.append_assoc, usesFit_append] at hfit
    rw [huses, ← List.append_assoc] at hS ⊢
    rw [internAll_append] at hS
    obtain ⟨heap₁, pool₁, h₁, hpool₁, hfix₁, hch₁⟩ := collectOwn_yields henv hnode hkey hown hpool
      hfit.1 ((prefix_internAll _ _).trans hS)
    have hdisjoint : [id].Disjoint (idsOf ts) := by
      rw [List.singleton_disjoint]
      exact hnodup.1
    obtain ⟨hmembers₁, hsiblings₁⟩ := hch₁.keeps hdisjoint hmembers hsiblings
    obtain ⟨heap₂, pool₂, h₂, hpool₂, hfix₂, hch₂⟩ := collectChain_yields henv hmembers₁ hsiblings₁
      hnodup.2 (show (idsOf ts).length ≤ depth by omega)
      (hsiblings₁.length_le_turns hnodup.2) hpool₁ hfit.2 hS
    refine ⟨heap₂, pool₂, ?_, ?_, hfix₂.trans hfix₁, hch₁.append hch₂ hdisjoint⟩
    · rw [collectStrings]
      refine (leaving_deref hnode).bind (h₁.bind ?_)
      rw [hends.first_eq]
      exact h₂
    · rwa [internAll_append]

theorem collectChain_yields {env : Env} (henv : env.Succeeds) {S : List Bytes} :
    ∀ {ts : List NodeTree} {members : List (Bytes × Value)}
    {heap : List Node} {pool : Pool} {strings : List Bytes} {depth turns : Nat}
    {parent : Option NodeId}, DenotesMembers env.hash64 heap ts members →
    Siblings heap parent none ts → (idsOf ts).Nodup → (idsOf ts).length ≤ depth →
    ts.length ≤ turns → PoolHolds env.hash64 workerCount strings pool →
    UsesFit strings (membersUses members) → internAll strings (membersUses members) <+: S →
    Collects env workerCount S strings (membersUses members) (idsOf ts) heap pool
      (forSiblingsCollecting (fun child _ s => collectStrings env depth child s) turns
        (firstId ts none) (heap, pool))
  | [], _, heap, pool, strings, depth, turns, _, .nil, _, _, _, _, hpool, _, _ =>
    ⟨heap, pool, forSiblings_none turns _, hpool, rfl, Changed.refl _ heap⟩
  | t :: ts, _, heap, pool, strings, depth, 0, _, _, _, _, _, hturns, _, _, _ => by
    rw [List.length_cons] at hturns
    omega
  | t :: ts, _, heap, pool, strings, depth, turns + 1, _, .cons head tail, ⟨hlinked, hsiblings⟩,
      hnodup, hdepth, hturns, hpool, hfit, hS => by
    rw [idsOf, List.nodup_append'] at hnodup
    rw [idsOf, List.length_append] at hdepth
    rw [List.length_cons] at hturns
    rw [membersUses, usesFit_append] at hfit
    rw [membersUses] at hS ⊢
    rw [internAll_append] at hS
    obtain ⟨hnodup₁, hnodup₂, hdisjoint⟩ := hnodup
    obtain ⟨heap₁, pool₁, h₁, hpool₁, hfix₁, hch₁⟩ :=
      collectStrings_yields henv head hlinked hnodup₁
      (show t.ids.length ≤ depth by omega) hpool hfit.1 ((prefix_internAll _ _).trans hS)
    obtain ⟨htail₁, hsiblings₁⟩ := hch₁.keeps hdisjoint tail hsiblings
    obtain ⟨heap₂, pool₂, h₂, hpool₂, hfix₂, hch₂⟩ := collectChain_yields henv htail₁ hsiblings₁
      hnodup₂ (show (idsOf ts).length ≤ depth by omega) (show ts.length ≤ turns by omega)
      hpool₁ hfit.2 hS
    refine ⟨heap₂, pool₂, ?_, ?_, hfix₂.trans hfix₁, hch₁.append hch₂ hdisjoint⟩
    · obtain ⟨node, hnode, hnext⟩ := hlinked.root
      have hnode₁ := hch₁.inside _ t.nodeId_mem_ids
      rw [hnode, Option.map_some] at hnode₁
      refine forSiblings_some (leaving_deref hnode) h₁ (leaving_deref hnode₁) ?_
      rw [Node.cached_nextSibling, hnext]
      exact h₂
    · rwa [internAll_append]

end

/-- The walk stops at the first use that does not fit. -/
theorem collectOwn_overflow {env : Env} (henv : env.Succeeds) {heap : List Node} {pool : Pool}
    {strings own : List Bytes} {id : NodeId} {node : Node} {key : Bytes}
    (hnode : heap[id]? = some node) (hkey : node.HoldsKey env.hash64 key)
    (hown : OwnUses node own) (hpool : PoolHolds env.hash64 workerCount strings pool)
    (hfit : ¬UsesFit strings (keyUses key ++ own)) :
    Overflows (collectOwn env id node heap pool) := by
  rw [usesFit_append, not_and] at hfit
  by_cases hkeyfit : UsesFit strings (keyUses key)
  · obtain ⟨heap₁, pool₁, h₁, hpool₁, -, -⟩ := collectKey_yields henv hnode hkey hpool hkeyfit
      List.prefix_rfl
    have hvalue : Overflows (collectValue env id node heap₁ pool₁) :=
      collectValue_overflow hown hpool₁ (hfit hkeyfit)
    obtain ⟨heap₂, h₂⟩ := hvalue
    exact ⟨heap₂, h₁.bind h₂⟩
  · have hkeyOverflow : Overflows (collectKey env id node heap pool) :=
      collectKey_overflow hkey hpool hkeyfit
    obtain ⟨heap₁, h₁⟩ := hkeyOverflow
    exact ⟨heap₁, h₁.bind_error⟩

mutual

theorem collectStrings_overflow {env : Env} (henv : env.Succeeds) : ∀ {t : NodeTree}
    {key : Bytes} {value : Value} {heap : List Node} {pool : Pool} {strings : List Bytes}
    {depth : Nat} {parent next : Option NodeId}, t.Denotes env.hash64 heap key value →
    LinkedAt heap parent next t → t.ids.Nodup → t.ids.length ≤ depth →
    PoolHolds env.hash64 workerCount strings pool →
    ¬UsesFit strings (keyUses key ++ valueUses value) →
    Overflows (collectStrings env depth t.nodeId (heap, pool))
  | .mk id ts, key, value, heap, pool, strings, 0, _, _, _, _, _, hdepth, _, _ => by
    rw [ids, List.length_cons] at hdepth
    omega
  | .mk id ts, key, value, heap, pool, strings, depth + 1, _, _, hdenotes, hlinked, hnodup,
      hdepth, hpool, hfit => by
    obtain ⟨node, own, members, hnode, hkey, hown, hmembers, huses⟩ := hdenotes.parts
    obtain ⟨node', hnode', -, -, hends, hsiblings⟩ := hlinked
    obtain rfl : node = node' := Option.some.inj (hnode.symm.trans hnode')
    rw [ids, List.nodup_cons] at hnodup
    rw [ids, List.length_cons] at hdepth
    rw [huses, ← List.append_assoc, usesFit_append, not_and] at hfit
    by_cases hownfit : UsesFit strings (keyUses key ++ own)
    · obtain ⟨heap₁, pool₁, h₁, hpool₁, -, hch₁⟩ := collectOwn_yields henv hnode hkey hown hpool
        hownfit List.prefix_rfl
      obtain ⟨hmembers₁, hsiblings₁⟩ := hch₁.keeps (by
        rw [List.singleton_disjoint]
        exact hnodup.1) hmembers hsiblings
      obtain ⟨heap₂, h₂⟩ := collectChain_overflow henv hmembers₁ hsiblings₁ hnodup.2
        (show (idsOf ts).length ≤ depth by omega) (hsiblings₁.length_le_turns hnodup.2) hpool₁
        (hfit hownfit)
      refine ⟨heap₂, (leaving_deref hnode).bind (h₁.bind ?_)⟩
      rw [hends.first_eq]
      exact h₂
    · obtain ⟨heap₁, h₁⟩ := collectOwn_overflow henv hnode hkey hown hpool hownfit
      exact ⟨heap₁, (leaving_deref hnode).bind h₁.bind_error⟩

theorem collectChain_overflow {env : Env} (henv : env.Succeeds) : ∀ {ts : List NodeTree}
    {members : List (Bytes × Value)} {heap : List Node} {pool : Pool} {strings : List Bytes}
    {depth turns : Nat} {parent : Option NodeId}, DenotesMembers env.hash64 heap ts members →
    Siblings heap parent none ts → (idsOf ts).Nodup → (idsOf ts).length ≤ depth →
    ts.length ≤ turns → PoolHolds env.hash64 workerCount strings pool →
    ¬UsesFit strings (membersUses members) →
    Overflows (forSiblingsCollecting (fun child _ s => collectStrings env depth child s) turns
      (firstId ts none) (heap, pool))
  | [], _, _, _, _, _, _, _, .nil, _, _, _, _, _, hfit => absurd trivial hfit
  | t :: ts, _, _, _, _, _, 0, _, _, _, _, _, hturns, _, _ => by
    rw [List.length_cons] at hturns
    omega
  | t :: ts, _, heap, pool, strings, depth, turns + 1, _,
      @DenotesMembers.cons _ _ _ _ key value _ head tail, ⟨hlinked, hsiblings⟩, hnodup, hdepth,
      hturns, hpool, hfit => by
    rw [idsOf, List.nodup_append'] at hnodup
    rw [idsOf, List.length_append] at hdepth
    rw [List.length_cons] at hturns
    rw [membersUses, usesFit_append, not_and] at hfit
    obtain ⟨hnodup₁, hnodup₂, hdisjoint⟩ := hnodup
    obtain ⟨node, hnode, hnext⟩ := hlinked.root
    by_cases hhead : UsesFit strings (keyUses key ++ valueUses value)
    · obtain ⟨heap₁, pool₁, h₁, hpool₁, -, hch₁⟩ := collectStrings_yields henv head hlinked
        hnodup₁ (show t.ids.length ≤ depth by omega) hpool hhead List.prefix_rfl
      obtain ⟨htail₁, hsiblings₁⟩ := hch₁.keeps hdisjoint tail hsiblings
      have hnode₁ := hch₁.inside _ t.nodeId_mem_ids
      rw [hnode, Option.map_some] at hnode₁
      obtain ⟨heap₂, h₂⟩ := collectChain_overflow henv htail₁ hsiblings₁ hnodup₂
        (show (idsOf ts).length ≤ depth by omega) (show ts.length ≤ turns by omega) hpool₁
        (hfit hhead)
      refine ⟨heap₂, forSiblings_some (leaving_deref hnode) h₁ (leaving_deref hnode₁) ?_⟩
      rw [Node.cached_nextSibling, hnext]
      exact h₂
    · obtain ⟨heap₁, h₁⟩ := collectStrings_overflow henv head hlinked hnodup₁
        (show t.ids.length ≤ depth by omega) hpool hhead
      exact ⟨heap₁, forSiblings_error (leaving_deref hnode) h₁⟩

end

end Hrbl
