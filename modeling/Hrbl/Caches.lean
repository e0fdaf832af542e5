import Hrbl.Session

/-!
# What a finalize call leaves behind

`collect_strings` stores offsets in the nodes, and a call that fails half way leaves those
it has stored. Nothing else of the nodes changes, and a node without a key keeps its mark
of an unknown offset, so the nodes still are the tree of the builder afterwards.
-/

namespace Hrbl

open Lib NodeTree

/-! ## Nodes with other offsets -/

/-- A node without the two offsets. -/
def Node.bare (n : Node) : Node :=
  { n with cachedKeyPoolOffset := poolOffsetNone, cachedStringPoolOffset := poolOffsetNone }

/-- The node has perhaps other offsets, but without a key none for the key. -/
structure Node.Recached (n n' : Node) : Prop where
  bare : n'.bare = n.bare
  keyless : n.keyData = none → n'.cachedKeyPoolOffset = n.cachedKeyPoolOffset

theorem Node.Recached.keyData {n n' : Node} (h : n.Recached n') : n'.keyData = n.keyData := by
  have hdata : n'.bare.keyData = n.bare.keyData := by rw [h.bare]
  exact hdata

theorem Node.Recached.kind {n n' : Node} (h : n.Recached n') : n'.kind = n.kind := by
  have hkind : n'.bare.kind = n.bare.kind := by rw [h.bare]
  exact hkind

/-- All nodes are the same but for their offsets. -/
structure Recached (heap heap' : List Node) : Prop where
  length_eq : heap'.length = heap.length
  node : ∀ {id : NodeId} {n : Node}, heap[id]? = some n →
    ∃ n', heap'[id]? = some n' ∧ n.Recached n'

namespace Recached

theorem refl (heap : List Node) : Recached heap heap :=
  ⟨rfl, fun h => ⟨_, h, rfl, fun _ => rfl⟩⟩

theorem trans {heap heap' heap'' : List Node} (h : Recached heap heap')
    (h' : Recached heap' heap'') : Recached heap heap'' := by
  refine ⟨h'.length_eq.trans h.length_eq, fun {id n} hn => ?_⟩
  obtain ⟨n', hn', hr⟩ := h.node hn
  obtain ⟨n'', hn'', hr'⟩ := h'.node hn'
  refine ⟨n'', hn'', hr'.bare.trans hr.bare, fun hnone => ?_⟩
  rw [hr'.keyless (hr.keyData.trans hnone), hr.keyless hnone]

theorem modify {heap : List Node} {id : NodeId} {node : Node} {f : Node → Node}
    (hnode : heap[id]? = some node) (hf : node.Recached (f node)) :
    Recached heap (heap.modify id f) := by
  refine ⟨List.length_modify .., fun {i n} hn => ?_⟩
  by_cases hi : id = i
  · subst hi
    obtain rfl : node = n := Option.some.inj (hnode.symm.trans hn)
    exact ⟨_, getElem?_modify_self f hn, hf⟩
  · exact ⟨n, (List.getElem?_modify_ne f heap hi).trans hn, rfl, fun _ => rfl⟩

end Recached

/-! ## Finalizing changes only offsets -/

section

variable (env : Env) {heap₀ heap : List Node}

/-- The invariant of the collection: the nodes so far, returned or left. -/
def KeepsNodes (heap₀ : List Node) (m : CollectM (List Node × Pool)) : Prop :=
  Ensures m (fun r => Recached heap₀ r.1) fun e => Recached heap₀ e.2

theorem leaving_ensures {α : Type} (h : Recached heap₀ heap) (m : AllocM α) :
    Ensures (leaving heap m) (fun _ => True) fun e => Recached heap₀ e.2 :=
  Ensures.adapt fun _ => h

theorem deref_ensures (h : Recached heap₀ heap) (id : NodeId) :
    Ensures (leaving heap (derefNode heap id)) (fun node => heap[id]? = some node)
      fun e => Recached heap₀ e.2 := by
  unfold derefNode
  cases hnode : heap[id]? with
  | none => exact Ensures.throw (e := (Failure.fault, heap)) h
  | some node => exact Ensures.pure (a := node) rfl

theorem forSiblings_ensures {ε σ : Type} {deref : σ → NodeId → EStateM ε Calls Node}
    {diverges : σ → ε} {body : NodeId → Node → σ → EStateM ε Calls σ} {P : σ → Prop}
    {Q : ε → Prop} (hderef : ∀ s id, P s → Ensures (deref s id) (fun _ => True) Q)
    (hdiverges : ∀ s, P s → Q (diverges s))
    (hbody : ∀ id node s, P s → Ensures (body id node s) P Q) (turns : Nat)
    (first : Option NodeId) (s : σ) (hs : P s) :
    Ensures (forSiblings deref diverges body turns first s) P Q := by
  induction turns generalizing first s with
  | zero =>
    cases first with
    | none => exact .pure hs
    | some id => exact .throw (hdiverges s hs)
  | succ turns ih =>
    cases first with
    | none => exact .pure hs
    | some id =>
      exact (hderef s id hs).bind fun node _ => (hbody id node s hs).bind fun s' hs' =>
        (hderef s' id hs').bind fun node' _ => ih node'.nextSibling s' hs'

theorem collectKey_keeps {id : NodeId} {node : Node} (pool : Pool) (h : Recached heap₀ heap)
    (hnode : heap[id]? = some node) : KeepsNodes heap₀ (collectKey env id node heap pool) := by
  unfold collectKey
  cases hdata : node.keyData with
  | none => exact .pure h
  | some key =>
    refine (leaving_ensures h _).bind fun bytes _ => (leaving_ensures h _).bind fun r _ => ?_
    refine .pure (h.trans (.modify hnode ⟨rfl, fun hnone => ?_⟩))
    rw [hdata] at hnone
    cases hnone

theorem collectValue_keeps {id : NodeId} {node : Node} (pool : Pool) (h : Recached heap₀ heap)
    (hlt : id < heap.length) : KeepsNodes heap₀ (collectValue env id node heap pool) := by
  unfold collectValue
  split
  · refine (leaving_ensures h _).bind fun data _ => (leaving_ensures h _).bind fun r _ => ?_
    exact .pure (h.trans (.modify (List.getElem?_eq_getElem hlt) ⟨rfl, fun _ => rfl⟩))
  · exact .pure h

theorem collectOwn_keeps {id : NodeId} {node : Node} (pool : Pool) (h : Recached heap₀ heap)
    (hnode : heap[id]? = some node) : KeepsNodes heap₀ (collectOwn env id node heap pool) := by
  have hlt : id < heap₀.length := h.length_eq ▸ (List.getElem?_eq_some_iff.mp hnode).1
  refine (collectKey_keeps env pool h hnode).bind fun r hr => ?_
  exact collectValue_keeps env r.2 hr (hr.length_eq.symm ▸ hlt)

theorem collectChain_keeps {body : NodeId → Node → List Node × Pool → CollectM (List Node × Pool)}
    (hbody : ∀ id node s, Recached heap₀ s.1 → KeepsNodes heap₀ (body id node s)) (turns : Nat)
    (first : Option NodeId) (s : List Node × Pool) (hs : Recached heap₀ s.1) :
    KeepsNodes heap₀ (forSiblingsCollecting body turns first s) :=
  forSiblings_ensures (P := fun s : List Node × Pool => Recached heap₀ s.1)
    (fun _ _ hs => leaving_ensures hs _) (fun _ hs => hs) hbody turns first s hs

theorem collectStrings_keeps (depth : Nat) (id : NodeId) (s : List Node × Pool)
    (hs : Recached heap₀ s.1) : KeepsNodes heap₀ (collectStrings env depth id s) := by
  induction depth generalizing id s with
  | zero => exact .throw hs
  | succ depth ih =>
    refine (deref_ensures hs id).bind fun node hnode => ?_
    refine (collectOwn_keeps env s.2 hs hnode).bind fun own hown => ?_
    exact collectChain_keeps (fun id _ s hs => ih id s hs) _ _ own hown

theorem collectRoots_keeps (w : Writer) : KeepsNodes w.nodes (collectRoots env w) := by
  refine (leaving_ensures (.refl w.nodes) _).bind fun pool _ => ?_
  exact collectChain_keeps (fun id _ s hs => collectStrings_keeps env _ id s hs) _ _ _ (.refl _)

theorem serializeToBuffer_keeps (w : Writer) :
    Ensures (serializeToBuffer env w) (fun r => Recached w.nodes r.1)
      fun e => Recached w.nodes e.2 := by
  refine (collectRoots_keeps env w).bind fun r hr => ?_
  exact (leaving_ensures hr _).bind fun file _ => .pure hr

/-- A writer that has been finalized, or not, differs in offsets and in what no
construction call reads. -/
structure Refinalized (w w' : Writer) : Prop where
  eq : w' = { w with nodes := w'.nodes, calls := w'.calls, lastError := w'.lastError }
  nodes : Recached w.nodes w'.nodes

theorem finalizeToBuffer_keeps (w : Writer) :
    (∀ file w', finalizeToBuffer env w = .returned file w' → Refinalized w w') ∧
    ∀ w', finalizeToBuffer env w = .refused w' → Refinalized w w' := by
  have hkeeps := serializeToBuffer_keeps env w w.calls
  unfold finalizeToBuffer
  split
  · refine ⟨nofun, fun w' h => ?_⟩
    cases h
    exact ⟨rfl, .refl _⟩
  split
  · refine ⟨nofun, fun w' h => ?_⟩
    cases h
    exact ⟨rfl, .refl _⟩
  split
  · rename_i hserialize
    rw [hserialize] at hkeeps
    refine ⟨fun file w' h => ?_, nofun⟩
    cases h
    exact ⟨rfl, hkeeps⟩
  · rename_i hserialize
    rw [hserialize] at hkeeps
    refine ⟨nofun, fun w' h => ?_⟩
    cases h
    exact ⟨rfl, hkeeps⟩
  · exact ⟨nofun, nofun⟩
  · exact ⟨nofun, nofun⟩

end

/-! ## The tree is still there -/

section

variable {hash64 : Bytes → UInt64} {nodes nodes' : List Node}

theorem Node.Recached.links {n n' : Node} (h : n.Recached n') :
    n'.parent = n.parent ∧ n'.nextSibling = n.nextSibling ∧ n'.firstChild = n.firstChild ∧
      n'.lastChild = n.lastChild ∧ n'.childCount = n.childCount := by
  have hlinks : ∀ m : Node, m.bare.parent = m.parent ∧ m.bare.nextSibling = m.nextSibling ∧
      m.bare.firstChild = m.firstChild ∧ m.bare.lastChild = m.lastChild ∧
      m.bare.childCount = m.childCount := fun _ => ⟨rfl, rfl, rfl, rfl, rfl⟩
  obtain ⟨hp, hn, hf, hl, hc⟩ := hlinks n
  obtain ⟨hp', hn', hf', hl', hc'⟩ := hlinks n'
  rw [← hp', ← hn', ← hf', ← hl', ← hc', h.bare]
  exact ⟨hp, hn, hf, hl, hc⟩

theorem Node.HoldsKey.recached {n n' : Node} {key : Bytes} (hkey : n.HoldsKey hash64 key)
    (h : n.Recached n') : n'.HoldsKey hash64 key := by
  have hlength : n'.bare.keyLength = n.bare.keyLength := by rw [h.bare]
  have hhash : n'.bare.keyHash64 = n.bare.keyHash64 := by rw [h.bare]
  refine ⟨hkey.length_le, h.keyData.trans hkey.data, hlength.trans hkey.length,
    fun hne => hhash.trans (hkey.hash hne), fun hempty => ?_⟩
  rw [h.keyless, hkey.uncached hempty]
  rw [hkey.data, hempty]
  rfl

theorem Node.HoldsPayload.recached {n n' : Node} {s : Scalar} (hpayload : n.HoldsPayload s)
    (h : n.Recached n') : n'.HoldsPayload s := by
  have hbare : ∀ m : Node, m.bare.HoldsPayload s ↔ m.HoldsPayload s := by
    intro m
    cases s <;> exact Iff.rfl
  rw [← hbare, h.bare, hbare]
  exact hpayload

theorem Ends.recached {n n' : Node} {ts : List NodeTree} {stop : Option NodeId}
    (hends : Ends n.firstChild n.lastChild n.childCount ts stop) (h : n.Recached n') :
    Ends n'.firstChild n'.lastChild n'.childCount ts stop := by
  obtain ⟨-, -, hfirst, hlast, hcount⟩ := h.links
  rw [hfirst, hlast, hcount]
  exact hends

mutual

theorem LinkedAt.recached (hsame : Recached nodes nodes') {parent next : Option NodeId} :
    ∀ {t : NodeTree}, LinkedAt nodes parent next t → LinkedAt nodes' parent next t
  | .mk _ _, ⟨_, hnode, hparent, hnext, hends, hchildren⟩ => by
    obtain ⟨n', hn', hr⟩ := hsame.node hnode
    exact ⟨n', hn', hr.links.1.trans hparent, hr.links.2.1.trans hnext, hends.recached hr,
      hchildren.recached hsame⟩

theorem Siblings.recached (hsame : Recached nodes nodes') {parent stop : Option NodeId} :
    ∀ {ts : List NodeTree}, Siblings nodes parent stop ts → Siblings nodes' parent stop ts
  | [], _ => trivial
  | _ :: _, ⟨ht, hts⟩ => ⟨ht.recached hsame, hts.recached hsame⟩

end

mutual

theorem NodeTree.Denotes.recached (hsame : Recached nodes nodes') :
    ∀ {t : NodeTree} {key : Bytes} {value : Value}, t.Denotes hash64 nodes key value →
      t.Denotes hash64 nodes' key value
  | _, _, _, .scalar hnode hkey hkind hpayload => by
    obtain ⟨n', hn', hr⟩ := hsame.node hnode
    exact .scalar hn' (hkey.recached hr) (hr.kind.trans hkind) (hpayload.recached hr)
  | _, _, _, .block hnode hkey hkind hmembers => by
    obtain ⟨n', hn', hr⟩ := hsame.node hnode
    exact .block hn' (hkey.recached hr) (hr.kind.trans hkind) (hmembers.recached hsame)
  | _, _, _, .array hnode hkey hkind helements => by
    obtain ⟨n', hn', hr⟩ := hsame.node hnode
    exact .array hn' (hkey.recached hr) (hr.kind.trans hkind) (helements.recached hsame)

theorem DenotesMembers.recached (hsame : Recached nodes nodes') :
    ∀ {ts : List NodeTree} {members : List (Bytes × Value)}, DenotesMembers hash64 nodes ts members →
      DenotesMembers hash64 nodes' ts members
  | _, _, .nil => .nil
  | _, _, .cons head tail => .cons (head.recached hsame) (tail.recached hsame)

end

theorem Matches.recached (hsame : Recached nodes nodes') {opened : List OpenNode}
    {done : List NodeTree} {b : Builder} (h : Matches hash64 nodes opened done b) :
    Matches hash64 nodes' opened done b := by
  refine ⟨h.root.recached hsame, h.scopes.imp fun o scope hscope => ?_, h.keyless⟩
  obtain ⟨node, hnode, hkey, hkind⟩ := hscope.node
  obtain ⟨n', hn', hr⟩ := hsame.node hnode
  exact ⟨⟨n', hn', hkey.recached hr, hr.kind.trans hkind⟩, hscope.members.recached hsame⟩

end

theorem Spine.recached {w w' : Writer} {done : List NodeTree} (hsame : Recached w.nodes w'.nodes)
    (hroot : w'.rootFirst = w.rootFirst ∧ w'.rootLast = w.rootLast ∧
      w'.rootCount = w.rootCount) :
    ∀ {stop : Option NodeId} {opened : List OpenNode}, Spine w stop opened done →
      Spine w' stop opened done
  | _, [], ⟨hends, hsiblings⟩ => by
    refine ⟨?_, hsiblings.recached hsame⟩
    rw [hroot.1, hroot.2.1, hroot.2.2]
    exact hends
  | _, _ :: _, ⟨⟨_, hnode, hparent, hnext, hends⟩, hsiblings, houter⟩ => by
    obtain ⟨n', hn', hr⟩ := hsame.node hnode
    exact ⟨⟨n', hn', hr.links.1.trans hparent, hr.links.2.1.trans hnext, hends.recached hr⟩,
      hsiblings.recached hsame, houter.recached hsame hroot⟩

/-- After a finalize call the nodes still are the tree of the builder. -/
theorem Tracks.refinalized {env : Env} {w w' : Writer} {b : Builder} (h : Tracks env w b)
    (hfinal : Refinalized w w') : Tracks env w' b := by
  obtain ⟨opened, done, hcurrent, hspine, hnodup, hmatches⟩ := h.shape
  have heq := hfinal.eq
  refine ⟨?_, opened, done, ?_, hspine.recached hfinal.nodes ?_, hnodup,
    hmatches.recached hfinal.nodes⟩
  · rw [heq]
    exact h.valid
  · rw [heq]
    exact hcurrent
  · rw [heq]
    exact ⟨rfl, rfl, rfl⟩

/-- Only the hash of an environment matters to what the nodes denote. -/
theorem Tracks.of_hash {env env' : Env} {w : Writer} {b : Builder} (h : Tracks env w b)
    (hhash : env'.hash64 = env.hash64) : Tracks env' w b := by
  refine ⟨h.valid, ?_⟩
  rw [hhash]
  exact h.shape

end Hrbl
