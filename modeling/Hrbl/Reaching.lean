import Hrbl.Sparing
import Hrbl.Lib.Outputs

/-!
# What the emission returns from

Where no array has 2^32 elements, the emission returns only for documents whose counts fit,
whose entries can be sorted, and whose strings fit into the pool: a block with more members is
stored behind the end of the array for its entries, a sort with too many workers stores behind
the end of the array for their contexts, and a string without room is an error.
-/

namespace Hrbl

open Lib NodeTree

variable {workerCount : UInt64}

/-! ## Arrays with counts that fit -/

mutual

/-- No array has 2^32 elements, all the way down. -/
def Value.ArraysNarrow : Value → Prop
  | .scalar _ => True
  | .block members => membersArraysNarrow members
  | .array elements => elements.length < 2 ^ 32 ∧ elementsArraysNarrow elements

def membersArraysNarrow : List (Bytes × Value) → Prop
  | [] => True
  | (_, value) :: members => value.ArraysNarrow ∧ membersArraysNarrow members

def elementsArraysNarrow : List Value → Prop
  | [] => True
  | value :: elements => value.ArraysNarrow ∧ elementsArraysNarrow elements

end

mutual

theorem Value.Narrow.arrays : ∀ {value : Value}, value.Narrow → value.ArraysNarrow
  | .scalar _, _ => trivial
  | .block _, h => membersNarrow_arrays h.2
  | .array _, h => ⟨h.1, elementsNarrow_arrays h.2⟩

theorem membersNarrow_arrays :
    ∀ {members : List (Bytes × Value)}, membersNarrow members → membersArraysNarrow members
  | [], _ => trivial
  | (_, _) :: _, h => ⟨h.1.arrays, membersNarrow_arrays h.2⟩

theorem elementsNarrow_arrays :
    ∀ {elements : List Value}, elementsNarrow elements → elementsArraysNarrow elements
  | [], _ => trivial
  | _ :: _, h => ⟨h.1.arrays, elementsNarrow_arrays h.2⟩

end

theorem membersArraysNarrow_elements {elements : List Value} (h : elementsArraysNarrow elements) :
    membersArraysNarrow (elements.map fun e => ([], e)) := by
  induction elements with
  | nil => trivial
  | cons e elements ih => exact ⟨h.1, ih h.2⟩

theorem elementsNarrow_of_members {elements : List Value}
    (h : membersNarrow (elements.map fun e => ([], e))) : elementsNarrow elements := by
  induction elements with
  | nil => trivial
  | cons e elements ih => exact ⟨h.1, ih h.2⟩

theorem elementsSortable_of_members {elements : List Value}
    (h : membersSortable workerCount (elements.map fun e => ([], e))) :
    elementsSortable workerCount elements := by
  induction elements with
  | nil => trivial
  | cons e elements ih => exact ⟨h.1, ih h.2⟩

/-! ## The emission -/

/-- What is known of a chain of siblings whose counts may not fit. -/
structure LooseChain (env : Env) (C : List Bytes) (heap₀ heap : List Node) (ts : List NodeTree)
    (members : List (Bytes × Value)) : Prop
    extends CollectedChain env.hash64 C heap₀ heap ts members where
  uses : ∀ u ∈ membersUses members, u ∈ C
  arrays : membersArraysNarrow members

/-- The same for a tree. -/
structure Loose (env : Env) (C : List Bytes) (heap₀ heap : List Node) (t : NodeTree)
    (key : Bytes) (value : Value) : Prop extends Collected env.hash64 C heap₀ heap t key value where
  uses : ∀ u ∈ valueUses value, u ∈ C
  arrays : value.ArraysNarrow

section

variable {env : Env} {C : List Bytes} {heap₀ heap : List Node} {t : NodeTree}
  {ts : List NodeTree} {key : Bytes} {value : Value} {members : List (Bytes × Value)}

theorem LooseChain.head (h : LooseChain env C heap₀ heap (t :: ts) ((key, value) :: members)) :
    Loose env C heap₀ heap t key value where
  toCollected := h.toCollectedChain.head
  uses u hu := h.uses u (List.mem_append_left _ (List.mem_append_right _ hu))
  arrays := h.arrays.1

theorem LooseChain.tail (h : LooseChain env C heap₀ heap (t :: ts) ((key, value) :: members)) :
    LooseChain env C heap₀ heap ts members where
  toCollectedChain := h.toCollectedChain.tail
  uses u hu := h.uses u (List.mem_append_right _ hu)
  arrays := h.arrays.2

/-- With counts that fit and entries that can be sorted, it is ready. -/
theorem Loose.ready (h : Loose env C heap₀ heap t key value) (hnarrow : value.Narrow)
    (hsortable : value.Sortable workerCount) : Ready env workerCount C heap₀ heap t key value :=
  ⟨h.toCollected, h.uses, hnarrow, hsortable⟩

theorem LooseChain.ready (h : LooseChain env C heap₀ heap ts members)
    (hnarrow : membersNarrow members) (hsortable : membersSortable workerCount members) :
    ReadyChain env workerCount C heap₀ heap ts members :=
  ⟨h.toCollectedChain, h.uses, hnarrow, hsortable⟩

end

/-- The empty string is in the pool already, or there is room for it. -/
theorem Late.room {C strings : List Bytes} {hash64 : Bytes → UInt64} {pool : Pool}
    (h : Late C strings) (hpool : PoolHolds hash64 workerCount strings pool) (hfits : UsesFit strings [[]]) :
    UsesFit C [[]] := by
  rcases h with rfl | rfl
  · exact hfits
  · refine ⟨fun hnot => ?_, trivial⟩
    have hshort := (hpool.short [] (mem_internString C [])).2
    rw [internString, if_neg hnot, poolOffsetOf_append_of_notMem hnot] at hshort
    exact hshort

section

variable {ε σ : Type} {deref : σ → NodeId → EStateM ε Calls Node} {diverges : σ → ε}
  {body : NodeId → Node → σ → EStateM ε Calls σ}

/-- A loop returns from its first turn. -/
theorem forSiblings_returns_first {P : Prop} {turns : Nat} {id : NodeId} {s : σ} {node : Node}
    (hnode : Yields (deref s id) (.ok node)) (hbody : Returns (fun _ => P) (body id node s)) :
    Returns (fun _ => P) (forSiblings deref diverges body (turns + 1) (some id) s) :=
  Returns.after hnode (Returns.first hbody)

/-- And from the rest, after a turn that is known. -/
theorem forSiblings_returns_rest {Q : σ → Prop} {turns : Nat} {id : NodeId} {s s' : σ}
    {node node' : Node} (hnode : Yields (deref s id) (.ok node))
    (hbody : Yields (body id node s) (.ok s')) (hnode' : Yields (deref s' id) (.ok node'))
    (hrest : Returns Q (forSiblings deref diverges body turns node'.nextSibling s')) :
    Returns Q (forSiblings deref diverges body (turns + 1) (some id) s) :=
  Returns.after hnode (Returns.after hbody (Returns.after hnode' hrest))

end

section

variable {env : Env} {base : Nat} {C : List Bytes} {heap₀ heap : List Node}

/-- A key is used only if there is room for it. -/
theorem emitKey_returns {strings : List Bytes} {node : Node} {key : Bytes} {pool : Pool}
    (hkey : node.HoldsKey env.hash64 key) (hlate : Late C strings)
    (hpool : PoolHolds env.hash64 workerCount strings pool) :
    Returns (fun _ => key = [] → UsesFit C [[]]) (emitKey env (node.cached C) pool) := by
  by_cases hfits : key = [] → UsesFit C [[]]
  · exact fun _ _ _ _ => hfits
  obtain ⟨hempty, hroom⟩ := Classical.not_imp.mp hfits
  subst hempty
  have hoverflow := intern_overflow hpool (Nat.zero_le _) fun h => hroom (hlate.room hpool h)
  have hhash : memberHash env (node.cached C) [] = env.hash64 [] := memberHash_cached hkey
  rw [emitKey, Node.cached_keyData, Node.cached_keyLength, hkey.data, hkey.length,
    Node.cached_key hkey]
  refine Returns.after (pointedBytes_yields hkey.length_le) ?_
  rw [if_pos rfl, if_pos rfl, hhash]
  exact Returns.of_error hoverflow.bind_error

/-- What a member returns from: room for its key, and what its value returns from. -/
theorem emitMember_returns (henv : env.Succeeds) {strings : List Bytes} {emitChild : EmitChild}
    (id : NodeId) {node : Node} {key : Bytes} {P : Prop} (nodes : EncoderBuffer) {pool : Pool}
    (hkey : node.HoldsKey env.hash64 key) (hmem : key ≠ [] → key ∈ C) (hlate : Late C strings)
    (hpool : PoolHolds env.hash64 workerCount strings pool)
    (hchild : ∀ (pool : Pool) (strings : List Bytes), Late C strings →
      PoolHolds env.hash64 workerCount strings pool → Returns (fun _ => P) (emitChild id nodes pool)) :
    Returns (fun _ => (key = [] → UsesFit C [[]]) ∧ P)
      (emitMember env emitChild id (node.cached C) nodes pool) := by
  by_cases hfits : key = [] → UsesFit C [[]]
  · obtain ⟨pool₁, hyields, hpool₁, -⟩ := emitKey_yields henv hkey hmem hfits hlate hpool
    have hvalue := hchild pool₁ _ (hlate.withEmpty [key]) hpool₁
    exact Returns.after hyields (Returns.first (hvalue.mono fun _ hP => ⟨hfits, hP⟩))
  · exact Returns.first ((emitKey_returns hkey hlate hpool).mono fun _ h => absurd h hfits)

/-- What the members of the root or of a block return from, with the sort of their entries. -/
theorem emitMembers_returns (henv : env.Succeeds) {ts : List NodeTree}
    {members : List (Bytes × Value)} {start : EncoderBuffer} {pool : Pool} {strings : List Bytes}
    {depth count pos : Nat} (hloose : LooseChain env C heap₀ heap ts members)
    (hdepth : (idsOf ts).length ≤ depth) (hpos : start.data.length = pos)
    (hfits : start.data.length ≤ start.capacity) (hlate : Late C strings)
    (hpool : PoolHolds env.hash64 workerCount strings pool)
    (hreturns : Returns (fun _ => ([] : List Entry).length + ts.length ≤ count ∧
        membersNarrow members ∧ membersSortable workerCount members ∧
        ([] ∈ members.map Prod.fst ++ refTargets (membersImage env.hash64 base pos members).2 →
          UsesFit C [[]]))
      (forSiblingsIn heap
        (memberTurn env (emitValue env heap (UInt64.ofNat base) depth) count) (turnsOf heap)
        (firstId ts none) (start, pool, []))) :
    Returns (fun _ => count = members.length ∧ membersNarrow members ∧
        Sortable workerCount members.length ∧ membersSortable workerCount members ∧
        ([] ∈ members.map Prod.fst ++ refTargets (membersImage env.hash64 base pos members).2 →
          UsesFit C [[]]))
      (emitMembers env heap (emitValue env heap (UInt64.ofNat base) depth) count
        (firstId ts none) start pool) := by
  have hlength : ts.length = members.length := hloose.denotes.length_eq
  rw [emitMembers]
  by_cases hgood : ([] : List Entry).length + ts.length ≤ count ∧ membersNarrow members ∧
    membersSortable workerCount members ∧
    ([] ∈ members.map Prod.fst ++ refTargets (membersImage env.hash64 base pos members).2 →
      UsesFit C [[]])
  · obtain ⟨hle, hnarrows, hsortables, hroom⟩ := hgood
    obtain ⟨c, pool', fixups, hyields, -, hpool', -⟩ := emitMembersLoop_yields henv start []
      count (hloose.ready hnarrows hsortables) hdepth hloose.length_le_turns hle hpos hfits hlate
      hpool hroom
    refine Returns.after hyields ?_
    rw [List.length_nil, Nat.zero_add, hlength] at hle
    dsimp only
    rw [List.nil_append, List.length_map, length_membersImage]
    refine Returns.ite (fun _ => Returns.throw _) fun hall => ?_
    have hcount : count = members.length := by omega
    by_cases hsortable : Sortable workerCount members.length
    · exact fun _ _ _ _ => ⟨hcount, hnarrows, hsortable, hsortables, hroom⟩
    -- the sort stores outside of the array of the contexts
    · refine Returns.of_error (pendingSort_wrapped henv ?_).bind_error
      rwa [hpool'.workers, List.length_map, length_membersImage]
  · exact Returns.bind_of hreturns fun _ hdone => absurd hdone hgood

mutual

/-- The emission of a value returns only if its counts and strings fit, and its entries can be
sorted. -/
theorem emitValue_returns (henv : env.Succeeds) : ∀ {t : NodeTree} {key : Bytes} {value : Value}
    (nodes : EncoderBuffer) {pool : Pool} {strings : List Bytes} {depth : Nat},
    Loose env C heap₀ heap t key value → t.ids.length ≤ depth → Late C strings →
    PoolHolds env.hash64 workerCount strings pool →
    Returns (fun _ => value.Narrow ∧ value.Sortable workerCount ∧
        ([] ∈ refTargets (valueImage env.hash64 base nodes.data.length value) → UsesFit C [[]]))
      (emitValue env heap (UInt64.ofNat base) depth t.nodeId nodes pool)
  | .mk id ts, key, value, nodes, pool, strings, 0, _, hdepth, _, _ => by
    rw [ids, List.length_cons] at hdepth
    omega
  | .mk id ts, key, .scalar s, nodes, pool, strings, depth + 1, hloose, _, _, _ => by
    -- the strings of scalars have been collected
    have huses : [] ∈ s.uses → [] ∈ C := fun hmem => hloose.uses [] hmem
    refine fun _ _ _ _ => ⟨trivial, trivial, fun hmem => ⟨fun hnot => ?_, trivial⟩⟩
    exact absurd (huses (Scalar.mem_refTargets hmem)) hnot
  | .mk id ts, key, .block members, nodes, pool, strings, depth + 1, hloose, hdepth, hlate,
      hpool => by
    obtain ⟨node, hnode, hkind, hcount, hfirst, hchain⟩ := hloose.toCollected.block
    have hmembers : LooseChain env C heap₀ heap ts members := ⟨hchain, hloose.uses, hloose.arrays⟩
    rw [ids, List.length_cons] at hdepth
    rw [emitValue]
    refine Returns.after (derefNode_yields hnode) ?_
    rw [Node.cached_kind, hkind]
    obtain ⟨c₁, c₂, c₃, c₄, h₁, h₂, h₃, h₄, hfits⟩ := emitContainer_yields henv nodes .block
      (le32 node.childCount ++ le32 (node.childCount * 24)) (node.childCount.toNat * 24)
    have hkind' := length_kindImage (show 0 < 8 by omega) nodes.data.length .block
    refine (?_ : Returns _ (emitBlock env heap (UInt64.ofNat base) _ nodes pool (node.cached C)))
    rw [emitBlock, Node.cached_childCount, Node.cached_firstChild, hfirst]
    refine Returns.after h₁ (Returns.after h₂ (Returns.after h₃ (Returns.after h₄
      (Returns.after (allocateArray_yields henv _) ?_))))
    have hdeep : (idsOf ts).length ≤ depth := by omega
    refine Returns.first ((emitMembers_returns henv hmembers hdeep rfl hfits hlate hpool
      (emitMembersLoop_returns henv _ [] node.childCount.toNat hmembers hdeep
        hmembers.length_le_turns (Nat.zero_le _) rfl hlate hpool)).mono fun _ hdone => ?_)
    obtain ⟨hsize, hnarrows, hsortable, hsortables, hall⟩ := hdone
    have hlt := node.childCount.toNat_lt
    refine ⟨⟨by omega, hnarrows⟩, ⟨hsortable, hsortables⟩, fun hmem => hall ?_⟩
    have hpos : (nodes.data ++ (kindImage nodes.data.length .block 8 ++
        (le32 node.childCount ++ le32 (node.childCount * 24))) ++
        List.replicate (node.childCount.toNat * 24) 0).length =
          blockStart nodes.data.length members.length := by
      simp only [List.length_append, length_le32, List.length_replicate, blockStart]
      omega
    rw [hpos]
    exact mem_refTargets_block.mp hmem
  | .mk id ts, key, .array elements, nodes, pool, strings, depth + 1, hloose, hdepth, hlate,
      hpool => by
    obtain ⟨node, hnode, hkind, hcount, hfirst, hchain⟩ := hloose.toCollected.array
    have hmembers : LooseChain env C heap₀ heap ts (elements.map fun e => ([], e)) := by
      refine ⟨hchain, ?_, membersArraysNarrow_elements hloose.arrays.2⟩
      rw [membersUses_elements]
      exact hloose.uses
    rw [ids, List.length_cons] at hdepth
    rw [emitValue]
    refine Returns.after (derefNode_yields hnode) ?_
    rw [Node.cached_kind, hkind]
    have hsize : node.childCount.toNat = elements.length := by
      rw [hcount, toNat_ofNat_of_lt hloose.arrays.1]
    obtain ⟨c₁, c₂, c₃, c₄, h₁, h₂, h₃, h₄, -⟩ := emitContainer_yields henv nodes .array
      (le32 node.childCount ++ le32 (node.childCount * 8)) (node.childCount.toNat * 8)
    have hlength : ts.length = elements.length := by
      rw [hchain.denotes.length_eq, List.length_map]
    have hkind' := length_kindImage (show 0 < 8 by omega) nodes.data.length .array
    refine (?_ : Returns _ (emitArray env heap (UInt64.ofNat base) _ nodes pool (node.cached C)))
    rw [emitArray, Node.cached_childCount, Node.cached_firstChild, hfirst]
    refine Returns.after h₁ (Returns.after h₂ (Returns.after h₃ (Returns.after h₄ ?_)))
    have hpos : (nodes.data ++ (kindImage nodes.data.length .array 8 ++
        (le32 node.childCount ++ le32 (node.childCount * 8))) ++
        List.replicate (node.childCount.toNat * 8) 0 ++ []).length =
          arrayStart nodes.data.length elements.length := by
      simp only [List.length_append, length_le32, List.length_replicate, List.length_nil,
        arrayStart]
      omega
    have hsmall : (0 : UInt32).toNat + ts.length < 2 ^ 32 := by
      have hzero : (0 : UInt32).toNat = 0 := rfl
      rw [hzero, Nat.zero_add, hlength]
      exact hloose.arrays.1
    have hloop := emitElementsLoop_returns henv
      (nodes.data ++ (kindImage nodes.data.length .array 8 ++
        (le32 node.childCount ++ le32 (node.childCount * 8))))
      (List.replicate (node.childCount.toNat * 8) 0) [] c₄ _ 0 hmembers
      (show (idsOf ts).length ≤ depth by omega) hmembers.length_le_turns rfl hsmall
      (by rw [List.length_replicate, hsize, hlength]) hpos hlate hpool
    rw [List.append_nil] at hloop
    refine Returns.first (hloop.mono fun _ hdone => ?_)
    obtain ⟨hnarrows, hsortables, hall⟩ := hdone
    refine ⟨⟨hloose.arrays.1, elementsNarrow_of_members hnarrows⟩,
      elementsSortable_of_members hsortables, fun hmem => hall ?_⟩
    rwa [valueImage_array, refTargets, elementsImage_eq] at hmem

/-- So does that of the members of the root or of a block, and only if there is room for all of
the entries. -/
theorem emitMembersLoop_returns (henv : env.Succeeds) : ∀ {ts : List NodeTree}
    {members : List (Bytes × Value)} (nodes : EncoderBuffer) {pool : Pool}
    {strings : List Bytes} (pending : List Entry) {depth turns : Nat} (count : Nat) {pos : Nat},
    LooseChain env C heap₀ heap ts members → (idsOf ts).length ≤ depth → ts.length ≤ turns →
    pending.length ≤ count → nodes.data.length = pos → Late C strings →
    PoolHolds env.hash64 workerCount strings pool →
    Returns (fun _ => pending.length + ts.length ≤ count ∧ membersNarrow members ∧
        membersSortable workerCount members ∧
        ([] ∈ members.map Prod.fst ++ refTargets (membersImage env.hash64 base pos members).2 →
          UsesFit C [[]]))
      (forSiblingsIn heap
        (memberTurn env (emitValue env heap (UInt64.ofNat base) depth) count) turns
        (firstId ts none) (nodes, pool, pending))
  | [], _, nodes, pool, _, pending, depth, turns, count, pos, hloose, _, _, hcount, _, _, _ => by
    cases hloose.denotes
    refine fun _ _ _ _ => ⟨hcount, trivial, trivial, fun hmem => ?_⟩
    exact absurd hmem List.not_mem_nil
  | t :: ts, _, _, _, _, _, _, 0, _, _, _, _, hturns, _, _, _, _ => by
    rw [List.length_cons] at hturns
    omega
  | t :: ts, [], _, _, _, _, _, _ + 1, _, _, hloose, _, _, _, _, _, _ => by
    cases hloose.denotes
  | t :: ts, (key, value) :: members, nodes, pool, strings, pending, depth, turns + 1, count,
      pos, hloose, hdepth, hturns, hcount, hpos, hlate, hpool => by
    subst hpos
    obtain ⟨node, hnode, hkey, hnext⟩ := hloose.first
    rw [idsOf, List.length_append] at hdepth
    rw [List.length_cons] at hturns
    have hhead : t.ids.length ≤ depth := by omega
    have hmem : key ≠ [] → key ∈ C := fun hne => hloose.uses key (mem_keyUses hne)
    have hmember := emitMember_returns henv t.nodeId nodes hkey hmem hlate hpool
      fun pool' strings' hlate' hpool' =>
        emitValue_returns henv nodes hloose.head hhead hlate' hpool'
    have hderef := derefNode_yields hnode
    by_cases hgood : (key = [] → UsesFit C [[]]) ∧ value.Narrow ∧ value.Sortable workerCount ∧
      ([] ∈ refTargets (valueImage env.hash64 base nodes.data.length value) → UsesFit C [[]])
    · obtain ⟨hroom, hnarrow, hsortable, hrefs⟩ := hgood
      have hemits := emitMember_yields henv t.nodeId nodes hkey hmem hroom hlate hpool
        fun pool' strings' hlate' hpool' => emitValue_yields henv nodes
          (hloose.head.ready hnarrow hsortable) hhead hlate' hpool' hrefs
      by_cases hless : pending.length < count
      · obtain ⟨c, pool', fixups, hyields, -, hpool', -⟩ := memberTurn_yields hless hemits
        refine forSiblings_returns_rest hderef hyields hderef ?_
        rw [Node.cached_nextSibling, hnext]
        have hrest := emitMembersLoop_returns henv
          { data := nodes.data ++ render (relative C)
              (valueImage env.hash64 base nodes.data.length value), capacity := c }
          (pending ++ [entryWith env.hash64 (relative C)
            (key, base + kindOffset nodes.data.length value.bodyAlign)]) count hloose.tail
          (show (idsOf ts).length ≤ depth by omega) (show ts.length ≤ turns by omega)
          (by rw [List.length_append, List.length_singleton]; omega)
          (by rw [List.length_append, length_render]) (hlate.withEmpty _) hpool'
        refine hrest.mono fun _ hdone => ?_
        obtain ⟨hlength, hnarrows, hsortables, hall⟩ := hdone
        refine ⟨?_, ⟨hnarrow, hnarrows⟩, ⟨hsortable, hsortables⟩, ?_⟩
        · rw [List.length_append, List.length_singleton] at hlength
          rw [List.length_cons]
          omega
        · rw [membersImage_cons]
          simp only [List.map_cons, refTargets_append, List.cons_append, List.mem_cons,
            List.mem_append] at hall ⊢
          rintro (hempty | hkeys | hvalue | hmembers)
          · exact hroom hempty.symm
          · exact hall (.inl hkeys)
          · exact hrefs hvalue
          · exact hall (.inr hmembers)
      -- the array for the entries is full
      · obtain ⟨c, pool', fixups, hyields, -⟩ := hemits
        refine forSiblings_returns_first hderef ?_
        rw [memberTurn]
        refine Returns.after hyields ?_
        dsimp only
        rw [if_neg hless]
        exact Returns.throw _
    -- the member does not return
    · refine forSiblings_returns_first hderef ?_
      rw [memberTurn]
      exact Returns.first (hmember.mono fun _ h => absurd h hgood)

/-- So does that of the elements of an array. -/
theorem emitElementsLoop_returns (henv : env.Succeeds) : ∀ {ts : List NodeTree}
    {members : List (Bytes × Value)} (pre hole post : Bytes) {pool : Pool}
    {strings : List Bytes} (capacity offsetsOffset : Nat) (index : UInt32) {depth turns pos : Nat},
    LooseChain env C heap₀ heap ts members → (idsOf ts).length ≤ depth → ts.length ≤ turns →
    offsetsOffset + index.toNat * 8 = pre.length → index.toNat + ts.length < 2 ^ 32 →
    hole.length = ts.length * 8 → (pre ++ hole ++ post).length = pos → Late C strings →
    PoolHolds env.hash64 workerCount strings pool →
    Returns (fun _ => membersNarrow members ∧ membersSortable workerCount members ∧
        ([] ∈ refTargets (membersImage env.hash64 base pos members).2 → UsesFit C [[]]))
      (forSiblingsIn heap
        (fun id _ => elementTurn (emitValue env heap (UInt64.ofNat base) depth) offsetsOffset id)
        turns (firstId ts none) ({ data := pre ++ hole ++ post, capacity }, pool, index))
  | [], _, _, _, _, _, _, _, _, _, _, _, _, hloose, _, _, _, _, _, _, _, _ => by
    cases hloose.denotes
    refine fun _ _ _ _ => ⟨trivial, trivial, fun hmem => ?_⟩
    exact absurd hmem List.not_mem_nil
  | t :: ts, _, _, _, _, _, _, _, _, _, _, 0, _, _, _, hturns, _, _, _, _, _, _ => by
    rw [List.length_cons] at hturns
    omega
  | t :: ts, [], _, _, _, _, _, _, _, _, _, _ + 1, _, hloose, _, _, _, _, _, _, _, _ => by
    cases hloose.denotes
  | t :: ts, (key, value) :: members, pre, hole, post, pool, strings, capacity, offsetsOffset,
      index, depth, turns + 1, pos, hloose, hdepth, hturns, hindex, hsmall, hhole, hpos, hlate,
      hpool => by
    subst hpos
    rw [List.length_cons] at hsmall
    have hsucc : (index + 1).toNat = index.toNat + 1 := by
      have hone : (1 : UInt32).toNat = 1 := rfl
      rw [UInt32.toNat_add, hone, Nat.mod_eq_of_lt (by omega)]
    obtain ⟨node, hnode, -, hnext⟩ := hloose.first
    rw [idsOf, List.length_append] at hdepth
    rw [List.length_cons] at hturns hhole
    have hhead : t.ids.length ≤ depth := by omega
    have hvalue := emitValue_returns henv
      { data := pre ++ hole ++ post, capacity } hloose.head hhead hlate hpool
    have hderef := derefNode_yields hnode
    -- the loop only goes on behind an element that can be emitted
    by_cases hgood : value.Narrow ∧ value.Sortable workerCount ∧
      ([] ∈ refTargets (valueImage env.hash64 base (pre ++ hole ++ post).length value) →
        UsesFit C [[]])
    · obtain ⟨hnarrow, hsortable, hrefs⟩ := hgood
      obtain ⟨c, pool', fixups, hyields, hfits, hpool', -⟩ :=
        elementTurn_yields hindex (show 8 ≤ hole.length by omega) (emitValue_yields henv
          { data := pre ++ hole ++ post, capacity } (hloose.head.ready hnarrow hsortable) hhead hlate hpool
          hrefs)
      refine forSiblings_returns_rest hderef hyields hderef ?_
      rw [Node.cached_nextSibling, hnext]
      generalize himage : valueImage env.hash64 base (pre ++ hole ++ post).length value = image at *
      have hlen : (pre ++ le64 (UInt64.ofNat (base + kindOffset (pre ++ hole ++ post).length
          value.bodyAlign)) ++ hole.drop 8 ++ (post ++ render (relative C) image)).length =
          (pre ++ hole ++ post).length + imageWidth image := by
        simp only [List.length_append, length_le64, List.length_drop, length_render]
        omega
      have hrest := emitElementsLoop_returns henv _ (hole.drop 8) _ c offsetsOffset (index + 1)
        hloose.tail (show (idsOf ts).length ≤ depth by omega) (show ts.length ≤ turns by omega)
        (by rw [hsucc, List.length_append, length_le64]; omega) (by rw [hsucc]; omega)
        (by rw [List.length_drop]; omega) hlen (hlate.withEmpty _) hpool'
      refine hrest.mono fun _ hdone => ?_
      obtain ⟨hnarrows, hsortables, hall⟩ := hdone
      refine ⟨⟨hnarrow, hnarrows⟩, ⟨hsortable, hsortables⟩, ?_⟩
      rw [membersImage_cons, himage]
      simp only [refTargets_append, List.mem_append]
      rintro (hvalue | hmembers)
      · exact hrefs hvalue
      · exact hall hmembers
    · exact forSiblings_returns_first hderef
        (Returns.first (hvalue.mono fun _ h => absurd h hgood))

end

end

/-! ## The file -/

/-- A copy stays inside of the output. -/
theorem storeOutput_returns (output : Bytes) (offset : UInt64) (bytes : Bytes) :
    Returns (fun output' => offset.toNat + bytes.length ≤ output.length ∧
        output'.length = output.length) (storeOutput output offset bytes) := by
  refine Returns.ite (fun hfits => Returns.pure ⟨hfits, ?_⟩) fun _ => Returns.throw _
  rw [overwrite, List.length_append, List.length_append, List.length_take, List.length_drop]
  omega

theorem storeRootIndex_returns (entries : List Entry) (offset : UInt64) (output : Bytes) :
    Returns (fun output' => output'.length = output.length)
      (storeRootIndex entries offset output) := by
  induction entries generalizing offset output with
  | nil => exact Returns.pure rfl
  | cons entry entries ih =>
    refine (storeOutput_returns output offset entry.encode).bind_of fun output' hstored => ?_
    rw [← hstored.2]
    exact ih _ _

/-- The nodes and the strings fit into the file. -/
theorem copyParts_returns (header : Header) (rootEntries : List Entry) (nodes strings : Bytes) :
    Returns (fun _ => header.nodesOffset.toNat + nodes.length ≤ header.fileSize.toNat ∧
        header.stringsOffset.toNat + strings.length ≤ header.fileSize.toNat)
      (copyParts header rootEntries nodes strings) := by
  refine (storeOutput_returns _ _ _).bind_of fun o₁ h₁ => ?_
  refine (storeRootIndex_returns rootEntries rootIndexStart o₁).bind_of fun o₂ h₂ => ?_
  refine (storeOutput_returns _ _ _).bind_of fun o₃ h₃ => ?_
  refine (storeOutput_returns _ _ _).mono fun o₄ h₄ => ?_
  rw [h₁.2, List.length_replicate] at h₂
  rw [h₂] at h₃
  rw [h₃.2] at h₄
  exact ⟨h₃.1, h₄.1⟩

/-- What is put together is smaller than 2^64 bytes. -/
theorem assemble_returns {env : Env} (n : UInt32) (rootEntries : List Entry)
    {nodes : EncoderBuffer} {pool : Pool}
    (happly : ∀ stringsOffset,
      ∃ patched, Yields (applyFixups nodes pool stringsOffset) (.ok patched) ∧
        patched.data.length = nodes.data.length) :
    Returns (fun _ => 128 + n.toNat * 24 + nodes.data.length + pool.buffer.data.length + 32 <
      2 ^ 64) (assemble env n.toUInt64 rootEntries nodes pool) := by
  rw [assemble]
  obtain ⟨patched, hyields, hlength⟩ := happly _
  refine Returns.after hyields (Returns.bind fun _ => Returns.first ?_)
  refine (copyParts_returns _ _ _ _).mono fun _ hfits => ?_
  obtain ⟨hnodes, hstring⟩ := hfits
  have hn := n.toNat_lt
  have hstart : rootIndexStart.toNat = 128 := rfl
  have hentry : rootEntrySize.toNat = 24 := rfl
  have hfooter : footerSize.toNat = 32 := rfl
  simp only [fileHeader, hlength, UInt64.toNat_add, UInt64.toNat_mul, UInt64.toNat_ofNat', hstart,
    hentry, hfooter, UInt32.toNat_toUInt64] at hnodes hstring
  omega

section

variable {env : Env} (henv : env.Succeeds) {w : Writer} {trees : List NodeTree}
  {document : Document} (h : Stored env w trees document)

include henv h

/-- What the strings of a writer have been collected into. -/
theorem collectRoots_ok {calls calls' : Calls} {heap : List Node} {pool : Pool}
    (hrun : collectRoots env w calls = .ok (heap, pool) calls') :
    UsesFit [] (membersUses document) ∧
      PoolHolds env.hash64 w.options.workerCount (collectedStrings document) pool ∧
      pool.fixupOffsets = [] ∧
      Changed (Node.cached (collectedStrings document)) (idsOf trees) w.nodes heap := by
  by_cases hfit : UsesFit [] (membersUses document)
  · obtain ⟨heap', pool', hyields, hpool, hnone, hchanged⟩ := collectRoots_yields henv h hfit
    obtain ⟨calls'', hrun'⟩ := hyields calls
    cases hrun.symm.trans hrun'
    exact ⟨hfit, hpool, hnone, hchanged⟩
  · obtain ⟨heap', hyields⟩ := collectRoots_overflow henv h hfit
    obtain ⟨calls'', hrun'⟩ := hyields calls
    cases hrun.symm.trans hrun'

/-- The emission of the nodes returns only if the counts and strings of the document fit, and
its entries can be sorted. -/
theorem emitNodes_returns (harrays : membersArraysNarrow document) {heap : List Node} {pool : Pool}
    (hpool : PoolHolds env.hash64 workerCount (collectedStrings document) pool)
    (hchanged : Changed (Node.cached (collectedStrings document)) (idsOf trees) w.nodes heap) :
    Returns (fun _ => document.Narrow ∧ document.Sortable workerCount ∧
        ([] ∈ documentRefs env.hash64 document → UsesFit (collectedStrings document) [[]]))
      (emitNodes env w heap pool) := by
  have hloose : LooseChain env (collectedStrings document) w.nodes heap trees document := {
    denotes := h.denotes
    siblings := ⟨none, h.siblings⟩
    nodup := h.nodup
    cached := hchanged.inside
    uses := fun u hu => mem_internAll.mpr (.inr hu)
    arrays := harrays }
  have hbase : rootIndexStart + w.rootCount.toUInt64 * rootEntrySize =
      UInt64.ofNat (128 + w.rootCount.toNat * 24) := by
    rw [UInt64.ofNat_add, UInt64.ofNat_mul, ← UInt32.toNat_toUInt64, UInt64.ofNat_toNat]
    rfl
  have hinit : Yields (bufferInit env 4096) (.ok ⟨[], 4096⟩) :=
    (allocate_yields henv).bind (yields_pure _)
  rw [emitNodes]
  refine Returns.after hinit (Returns.after (allocateArray_yields henv _) ?_)
  rw [hbase, h.ends.first_eq]
  have hdeep := h.depth_le hchanged.length_eq
  refine (emitMembers_returns henv hloose hdeep rfl (Nat.zero_le _) (.inl rfl) hpool
    (emitMembersLoop_returns henv ⟨[], 4096⟩ [] w.rootCount.toUInt64.toNat hloose hdeep
      hloose.length_le_turns (Nat.zero_le _) rfl (.inl rfl) hpool)).mono fun _ hdone => ?_
  obtain ⟨hcount, hnarrows, hsortable, hsortables, hroom⟩ := hdone
  have hlt := w.rootCount.toNat_lt
  rw [UInt32.toNat_toUInt64] at hcount
  rw [hcount] at hroom hlt
  exact ⟨⟨hlt, hnarrows⟩, ⟨hsortable, hsortables⟩, hroom⟩

theorem emitNodes_unrefused (harrays : membersArraysNarrow document) {calls₁ calls₂ calls₃ : Calls}
    {heap : List Node} {pool pool' : Pool} {nodes : EncoderBuffer} {entries : List Entry}
    (hcollect : collectRoots env w calls₁ = .ok (heap, pool) calls₂)
    (hemit : emitNodes env w heap pool calls₂ = .ok (nodes, pool', entries) calls₃) :
    document.Narrow ∧ nodes.data = render (relative (collectedStrings document))
        (membersImage env.hash64 (nodesStart document) 0 document).2 ∧
      PoolHolds env.hash64 w.options.workerCount (documentStrings env.hash64 document) pool' ∧
      pool'.fixupOffsets.Perm
        (refOffsets 0 (membersImage env.hash64 (nodesStart document) 0 document).2) ∧
      entries = sortedEntries env.hash64 (relative (collectedStrings document))
        (membersImage env.hash64 (nodesStart document) 0 document).1 := by
  obtain ⟨hfit, hpool, hnone, hchanged⟩ := collectRoots_ok henv h hcollect
  obtain ⟨hnarrow, hsortable, hroom⟩ :=
    emitNodes_returns henv h harrays hpool hchanged calls₂ _ calls₃ hemit
  obtain ⟨capacity, pool'', fixups, hyields, hpool'', hfixups, hperm⟩ :=
    emitNodes_yields henv h hnarrow hsortable hroom hpool hchanged
  obtain ⟨calls₄, hemit'⟩ := hyields calls₂
  cases hemit.symm.trans hemit'
  refine ⟨hnarrow, rfl, hpool'', ?_, rfl⟩
  rw [hfixups, hnone]
  exact hperm

/-- The encoder returns only from what it can encode, and then the file of the document. -/
theorem serializeToBuffer_returns (harrays : membersArraysNarrow document) :
    Returns (fun result => document.Encodable env.hash64 w.options.workerCount ∧
        result.2 = documentFile env.hash64 document)
      (serializeToBuffer env w) := by
  rw [serializeToBuffer]
  by_cases hfit : UsesFit [] (membersUses document)
  · obtain ⟨heap, pool, hcollect, hpool, hnone, hchanged⟩ := collectRoots_yields henv h hfit
    refine Returns.after hcollect ?_
    have hroots : Returns (fun file => document.Encodable env.hash64 w.options.workerCount ∧
        file = documentFile env.hash64 document) (emitRoots env w heap pool) := by
      rw [emitRoots_eq]
      by_cases hgood : document.Narrow ∧ document.Sortable w.options.workerCount ∧
        ([] ∈ documentRefs env.hash64 document → UsesFit (collectedStrings document) [[]])
      · obtain ⟨hnarrow, hsortable, hroom⟩ := hgood
        obtain ⟨capacity, pool', fixups, hemit, hpool', hfixups, hperm⟩ :=
          emitNodes_yields henv h hnarrow hsortable hroom hpool hchanged
        rw [hnone, List.nil_append] at hfixups
        rw [← hfixups] at hperm
        refine Returns.after hemit ?_
        by_cases hsize : documentSize env.hash64 document < 2 ^ 64
        · have hfile := assemble_yields henv capacity hpool' hperm hsize
          rw [h.rootCount_eq hnarrow]
          exact Returns.of_yields hfile ⟨⟨hnarrow, hsortable, ⟨hfit, hroom⟩, hsize⟩, rfl⟩
        · have happly := applyFixups_yields (relative (collectedStrings document)) capacity hperm
          refine (assemble_returns w.rootCount _ fun stringsOffset =>
            ⟨_, happly stringsOffset, by rw [length_render, length_render]⟩).mono
              fun _ hsmall => absurd ?_ hsize
          have hcount : w.rootCount.toNat = document.length := by
            have hlt := hnarrow.1
            rw [← UInt32.toNat_toUInt64, h.rootCount_eq hnarrow, toNat_ofNat_of_lt64 (by omega)]
          rw [hcount, hpool'.buffer, length_render] at hsmall
          rwa [documentSize, footerStart, stringsStart, nodesStart]
      · exact (emitNodes_returns henv h harrays hpool hchanged).bind_of
          fun _ hreturned => absurd hreturned hgood
    exact (hroots.adapt _).bind_of fun file hfile => Returns.pure hfile
  · obtain ⟨heap, hyields⟩ := collectRoots_overflow henv h hfit
    exact Returns.of_error hyields.bind_error

theorem finalizeToBuffer_unrefused (harrays : membersArraysNarrow document) {file : Bytes}
    {w' : Writer} (hreturned : finalizeToBuffer env w = .returned file w') :
    document.Encodable env.hash64 w.options.workerCount ∧
      file = documentFile env.hash64 document := by
  rw [finalizeToBuffer, h.valid, h.closed] at hreturned
  cases hrun : serializeToBuffer env w w.calls with
  | ok result calls =>
    rw [hrun] at hreturned
    cases hreturned
    exact serializeToBuffer_returns henv h harrays w.calls _ calls hrun
  | error e calls =>
    rw [hrun] at hreturned
    obtain ⟨failure, heap⟩ := e
    cases failure <;> cases hreturned

end

section

variable {env : Env} {w : Writer} {trees : List NodeTree} {document : Document}
  (h : Stored env w trees document) (harrays : membersArraysNarrow document)

include h harrays

/-- The nodes of a document at the end of the emission, whatever has been refused before. -/
theorem emitNodes_ok {calls₁ calls₂ calls₃ : Calls} {heap : List Node} {pool pool' : Pool}
    {nodes : EncoderBuffer} {entries : List Entry}
    (hcollect : collectRoots env w calls₁ = .ok (heap, pool) calls₂)
    (hemit : emitNodes env w heap pool calls₂ = .ok (nodes, pool', entries) calls₃) :
    document.Narrow ∧ nodes.data = render (relative (collectedStrings document))
        (membersImage env.hash64 (nodesStart document) 0 document).2 ∧
      PoolHolds env.hash64 w.options.workerCount (documentStrings env.hash64 document) pool' ∧
      pool'.fixupOffsets.Perm
        (refOffsets 0 (membersImage env.hash64 (nodesStart document) 0 document).2) ∧
      entries = sortedEntries env.hash64 (relative (collectedStrings document))
        (membersImage env.hash64 (nodesStart document) 0 document).1 :=
  emitNodes_unrefused env.spared_succeeds h.spared harrays (collectRoots_within env w hcollect)
    (emitNodes_within env w heap pool hemit)

/-- The file that is returned is the file of the document. -/
theorem finalizeToBuffer_file {file : Bytes} {w' : Writer}
    (hreturned : finalizeToBuffer env w = .returned file w') :
    document.Encodable env.hash64 w.options.workerCount ∧
      file = documentFile env.hash64 document :=
  finalizeToBuffer_unrefused env.spared_succeeds h.spared harrays
    (finalizeToBuffer_spared env hreturned)

end

/-! ## Calls to finalize -/

/-- Every file that `finalize_to_buffer` returns is such a file, and one is returned where
nothing is refused and the entries of the document can be sorted. -/
def Writer.Finalizes (env : Env) (w : Writer) (document : Document) (P : Buffer → Prop) : Prop :=
  (env.Succeeds → document.Sortable w.options.workerCount →
    ∃ (b : Buffer) (w' : Writer), finalizeToBuffer env w = .returned b.bytes w') ∧
  ∀ (b : Buffer) (w' : Writer), finalizeToBuffer env w = .returned b.bytes w' → P b

theorem Writer.Finalizes.mono {env : Env} {w : Writer} {document : Document}
    {P Q : Buffer → Prop} (h : w.Finalizes env document P) (hmono : ∀ b, P b → Q b) :
    w.Finalizes env document Q :=
  ⟨h.1, fun b w' hreturned => hmono b (h.2 b w' hreturned)⟩

/-- With a number of workers that fits, a file is returned. -/
theorem Writer.Finalizes.returned {env : Env} {w : Writer} {document : Document}
    {P : Buffer → Prop} (h : w.Finalizes env document P) (henv : env.Succeeds)
    (hfit : WorkersFit w.options.workerCount) :
    ∃ (b : Buffer) (w' : Writer), finalizeToBuffer env w = .returned b.bytes w' ∧ P b := by
  obtain ⟨b, w', hreturned⟩ := h.1 henv (hfit.document document)
  exact ⟨b, w', hreturned, h.2 b w' hreturned⟩

end Hrbl
