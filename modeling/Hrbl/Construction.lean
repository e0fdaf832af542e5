import Hrbl.Writer
import Hrbl.Layout

/-!
# What the linked nodes denote

The construction calls keep the nodes linked as a tree, and the tree is the one of the
builder. `Siblings` reads a chain of nodes off the pointers, `NodeTree.Denotes` reads
the value of a node off its fields, and `Tracks` joins both to a builder, one scope of
the builder for one open node. The step lemma `step_tracks` is assembled from the two
things that ever happen to a chain: a new node is hung below the current scope
(`Siblings.extend`), and a finished node is kept (`Siblings.snoc`).
-/

namespace Hrbl

open Lib

/-! ## Trees of nodes -/

/-- The nodes below a pointer, by their places in the arena. -/
inductive NodeTree where
  | mk (id : NodeId) (children : List NodeTree)
deriving Repr

namespace NodeTree

def nodeId : NodeTree → NodeId
  | mk id _ => id

mutual

/-- The nodes of a tree, parents first. -/
def ids : NodeTree → List NodeId
  | mk id children => id :: idsOf children

def idsOf : List NodeTree → List NodeId
  | [] => []
  | t :: ts => t.ids ++ idsOf ts

end

theorem nodeId_mem_ids (t : NodeTree) : t.nodeId ∈ t.ids := by
  cases t
  exact List.mem_cons_self

@[simp] theorem idsOf_append (ts us : List NodeTree) :
    idsOf (ts ++ us) = idsOf ts ++ idsOf us := by
  induction ts with
  | nil => rfl
  | cons t ts ih => simp only [List.cons_append, idsOf, ih, List.append_assoc]

/-- Where a chain of siblings starts that ends at `stop`. -/
def firstId (ts : List NodeTree) (stop : Option NodeId) : Option NodeId :=
  match ts with
  | [] => stop
  | t :: _ => some t.nodeId

/-- The last node of a chain, counting a node at `stop`. -/
def lastId (ts : List NodeTree) (stop : Option NodeId) : Option NodeId :=
  stop.or (ts.getLast?.map NodeTree.nodeId)

@[simp] theorem firstId_append (ts us : List NodeTree) (stop : Option NodeId) :
    firstId (ts ++ us) stop = firstId ts (firstId us stop) := by
  cases ts <;> rfl

theorem lastId_mem {ts : List NodeTree} {id : NodeId} (h : lastId ts none = some id) :
    id ∈ idsOf ts := by
  rw [lastId, Option.none_or, Option.map_eq_some_iff] at h
  obtain ⟨t, ht, rfl⟩ := h
  obtain ⟨us, rfl⟩ := List.getLast?_eq_some_iff.mp ht
  rw [idsOf_append, idsOf, idsOf, List.append_nil]
  exact List.mem_append_right _ t.nodeId_mem_ids

end NodeTree

open NodeTree

/-! ## Links -/

/-- The links of a scope, or of the root, to its children: those of `ts`, and one more
at `stop` when there is one. -/
structure Ends (first last : Option NodeId) (count : UInt32) (ts : List NodeTree)
    (stop : Option NodeId) : Prop where
  first_eq : first = firstId ts stop
  last_eq : last = lastId ts stop
  count_eq : count = UInt32.ofNat (ts.length + stop.toList.length)

mutual

/-- The nodes of a tree are linked as its shape says; `next` follows its root. -/
def LinkedAt (nodes : List Node) (parent next : Option NodeId) : NodeTree → Prop
  | .mk id children => ∃ node, nodes[id]? = some node ∧ node.parent = parent ∧
      node.nextSibling = next ∧
      Ends node.firstChild node.lastChild node.childCount children none ∧
      Siblings nodes (some id) none children

/-- A chain of siblings that ends at `stop`. -/
def Siblings (nodes : List Node) (parent stop : Option NodeId) : List NodeTree → Prop
  | [] => True
  | t :: ts => LinkedAt nodes parent (firstId ts stop) t ∧ Siblings nodes parent stop ts

end

mutual

/-- Links are read off the nodes of the tree only. -/
theorem LinkedAt.congr {nodes nodes' : List Node} {parent next : Option NodeId} :
    ∀ {t : NodeTree}, (∀ id ∈ t.ids, nodes'[id]? = nodes[id]?) →
      LinkedAt nodes parent next t → LinkedAt nodes' parent next t
  | .mk id _, hsame, ⟨node, hnode, hparent, hnext, hends, hchildren⟩ =>
    ⟨node, (hsame id List.mem_cons_self).trans hnode, hparent, hnext, hends,
      Siblings.congr (fun i hi => hsame i (List.mem_cons_of_mem _ hi)) hchildren⟩

theorem Siblings.congr {nodes nodes' : List Node} {parent stop : Option NodeId} :
    ∀ {ts : List NodeTree}, (∀ id ∈ idsOf ts, nodes'[id]? = nodes[id]?) →
      Siblings nodes parent stop ts → Siblings nodes' parent stop ts
  | [], _, _ => trivial
  | _ :: _, hsame, ⟨ht, hts⟩ =>
    ⟨LinkedAt.congr (fun i hi => hsame i (List.mem_append_left _ hi)) ht,
      Siblings.congr (fun i hi => hsame i (List.mem_append_right _ hi)) hts⟩

end

mutual

theorem LinkedAt.lt_length {nodes : List Node} {parent next : Option NodeId} :
    ∀ {t : NodeTree}, LinkedAt nodes parent next t → ∀ id ∈ t.ids, id < nodes.length
  | .mk _ _, ⟨_, hnode, _, _, _, hchildren⟩, _, hid => by
    rcases List.mem_cons.mp hid with rfl | hid
    · exact (List.getElem?_eq_some_iff.mp hnode).1
    · exact hchildren.lt_length _ hid

theorem Siblings.lt_length {nodes : List Node} {parent stop : Option NodeId} :
    ∀ {ts : List NodeTree}, Siblings nodes parent stop ts →
      ∀ id ∈ idsOf ts, id < nodes.length
  | _ :: _, ⟨ht, hts⟩, _, hid => by
    rcases List.mem_append.mp hid with hid | hid
    · exact ht.lt_length _ hid
    · exact hts.lt_length _ hid

end

/-- A finished node is kept at the end of the chain that led to it. -/
theorem Siblings.snoc {nodes : List Node} {parent : Option NodeId} {t : NodeTree}
    {ts : List NodeTree} (h : Siblings nodes parent (some t.nodeId) ts)
    (ht : LinkedAt nodes parent none t) : Siblings nodes parent none (ts ++ [t]) := by
  induction ts with
  | nil => exact ⟨ht, trivial⟩
  | cons u us ih =>
    refine ⟨?_, ih h.2⟩
    have hfirst : firstId (us ++ [t]) none = firstId us (some t.nodeId) :=
      firstId_append us [t] none
    rw [List.append_eq, hfirst]
    exact h.1

/-- A new node is hung behind the last one of a chain. -/
theorem Siblings.extend {nodes nodes' : List Node} {parent : Option NodeId} {new : NodeId}
    {ts : List NodeTree} (h : Siblings nodes parent none ts) (hnodup : (idsOf ts).Nodup)
    (hlast : ∀ id, lastId ts none = some id →
      nodes'[id]? = nodes[id]?.map fun n => { n with nextSibling := some new })
    (hother : ∀ id ∈ idsOf ts, lastId ts none ≠ some id → nodes'[id]? = nodes[id]?) :
    Siblings nodes' parent (some new) ts := by
  induction ts with
  | nil => trivial
  | cons t ts ih =>
    obtain ⟨ht, hts⟩ := h
    rw [idsOf, List.nodup_append] at hnodup
    obtain ⟨htnodup, htsnodup, hdisjoint⟩ := hnodup
    cases ts with
    | nil =>
      -- the root of `t` is the last node; what is below it stays
      obtain ⟨id, children⟩ := t
      obtain ⟨node, hnode, hparent, hnext, hends, hchildren⟩ := ht
      refine ⟨⟨{ node with nextSibling := some new }, ?_, hparent, rfl, hends, ?_⟩, trivial⟩
      · rw [hlast id rfl, hnode, Option.map_some]
      · refine hchildren.congr fun i hi => hother i ?_ ?_
        · rw [idsOf, idsOf, List.append_nil]
          exact List.mem_cons_of_mem _ hi
        · intro heq
          cases heq
          exact (List.nodup_cons.mp htnodup).1 hi
    | cons u us =>
      have hlast_eq : lastId (t :: u :: us) none = lastId (u :: us) none := by
        simp only [lastId, List.getLast?_cons_cons]
      rw [hlast_eq] at hlast hother
      refine ⟨ht.congr fun i hi => hother i (List.mem_append_left _ hi) ?_,
        ih hts htsnodup hlast fun i hi => hother i (List.mem_append_right _ hi)⟩
      intro heq
      exact hdisjoint i hi i (lastId_mem heq) rfl

/-! ## Values -/

/-- The fields of a node that say what it is; the others link it. -/
def Node.content (n : Node) : Node :=
  { n with
    childCount := 0
    parent := none
    firstChild := none
    lastChild := none
    nextSibling := none }

/-- Two arenas say the same about a node. -/
def SameContent (nodes nodes' : List Node) (id : NodeId) : Prop :=
  nodes'[id]?.map Node.content = nodes[id]?.map Node.content

/-- The kind a container is stored under. -/
def ScopeKind.kind : ScopeKind → Kind
  | .block => .block
  | .array => .array

/-- What the writer's arena keeps of a byte string: nothing of an empty one. -/
def cloned (data : Bytes) : Option Bytes := if data.length = 0 then none else some data

/-- A node holds a key. The hash of an empty key may be missing, and it never has an offset
in a pool. -/
structure Node.HoldsKey (hash64 : Bytes → UInt64) (n : Node) (key : Bytes) : Prop where
  length_le : key.length ≤ lengthMax
  data : n.keyData = cloned key
  length : n.keyLength = UInt32.ofNat key.length
  hash : key ≠ [] → n.keyHash64 = hash64 key
  uncached : key = [] → n.cachedKeyPoolOffset = poolOffsetNone

/-- A node holds the payload of a scalar. -/
def Node.HoldsPayload (n : Node) : Scalar → Prop
  | .null => True
  | .bool _ => True
  | .int64 value => n.int64Value = value
  | .uint64 value => n.uint64Value = value
  | .float64 bits => n.float64Value = bits
  | .string value => value.length ≤ lengthMax ∧ n.stringData = cloned value ∧
      n.stringLength = UInt32.ofNat value.length

mutual

/-- A tree of nodes denotes a value under a key. An element has the empty key. -/
inductive NodeTree.Denotes (hash64 : Bytes → UInt64) (nodes : List Node) :
    NodeTree → Bytes → Value → Prop where
  | scalar {id node key s} (hnode : nodes[id]? = some node) (hkey : node.HoldsKey hash64 key)
      (hkind : node.kind = s.kind) (hpayload : node.HoldsPayload s) :
      NodeTree.Denotes hash64 nodes (.mk id []) key (.scalar s)
  | block {id node key ts members} (hnode : nodes[id]? = some node)
      (hkey : node.HoldsKey hash64 key) (hkind : node.kind = .block)
      (hmembers : DenotesMembers hash64 nodes ts members) :
      NodeTree.Denotes hash64 nodes (.mk id ts) key (.block members)
  | array {id node key ts elements} (hnode : nodes[id]? = some node)
      (hkey : node.HoldsKey hash64 key) (hkind : node.kind = .array)
      (helements : DenotesMembers hash64 nodes ts (elements.map fun e => ([], e))) :
      NodeTree.Denotes hash64 nodes (.mk id ts) key (.array elements)

inductive DenotesMembers (hash64 : Bytes → UInt64) (nodes : List Node) :
    List NodeTree → List (Bytes × Value) → Prop where
  | nil : DenotesMembers hash64 nodes [] []
  | cons {t ts key value members} (head : NodeTree.Denotes hash64 nodes t key value)
      (tail : DenotesMembers hash64 nodes ts members) :
      DenotesMembers hash64 nodes (t :: ts) ((key, value) :: members)

end

variable {hash64 : Bytes → UInt64}

theorem Node.HoldsKey.of_content {n n' : Node} {key : Bytes} (h : n.HoldsKey hash64 key)
    (hsame : n'.content = n.content) : n'.HoldsKey hash64 key := by
  have hdata : n'.content.keyData = n.content.keyData := by rw [hsame]
  have hlength : n'.content.keyLength = n.content.keyLength := by rw [hsame]
  have hhash : n'.content.keyHash64 = n.content.keyHash64 := by rw [hsame]
  have hcached : n'.content.cachedKeyPoolOffset = n.content.cachedKeyPoolOffset := by rw [hsame]
  exact ⟨h.length_le, hdata.trans h.data, hlength.trans h.length,
    fun hne => hhash.trans (h.hash hne), fun hempty => hcached.trans (h.uncached hempty)⟩

theorem Node.kind_of_content {n n' : Node} (hsame : n'.content = n.content) :
    n'.kind = n.kind := by
  have hkind : n'.content.kind = n.content.kind := by rw [hsame]
  exact hkind

theorem Node.HoldsPayload.of_content {n n' : Node} {s : Scalar} (h : n.HoldsPayload s)
    (hsame : n'.content = n.content) : n'.HoldsPayload s := by
  have hpayload : n'.content.HoldsPayload s ↔ n.content.HoldsPayload s := by rw [hsame]
  have hcontent : ∀ m : Node, m.content.HoldsPayload s ↔ m.HoldsPayload s := by
    intro m
    cases s <;> exact Iff.rfl
  rw [← hcontent, hpayload, hcontent]
  exact h

theorem SameContent.exists {nodes nodes' : List Node} {id : NodeId} {n : Node}
    (h : SameContent nodes nodes' id) (hn : nodes[id]? = some n) :
    ∃ n', nodes'[id]? = some n' ∧ n'.content = n.content := by
  rw [SameContent, hn, Option.map_some, Option.map_eq_some_iff] at h
  exact h

mutual

/-- A value is read off the contents of the nodes of the tree only. -/
theorem NodeTree.Denotes.congr {nodes nodes' : List Node} :
    ∀ {t : NodeTree} {key : Bytes} {value : Value},
      (∀ id ∈ t.ids, SameContent nodes nodes' id) → t.Denotes hash64 nodes key value →
        t.Denotes hash64 nodes' key value
  | .mk id _, _, _, hsame, .scalar hnode hkey hkind hpayload => by
    obtain ⟨n', hn', hc⟩ := (hsame id List.mem_cons_self).exists hnode
    exact .scalar hn' (hkey.of_content hc) ((Node.kind_of_content hc).trans hkind)
      (hpayload.of_content hc)
  | .mk id _, _, _, hsame, .block hnode hkey hkind hmembers => by
    obtain ⟨n', hn', hc⟩ := (hsame id List.mem_cons_self).exists hnode
    exact .block hn' (hkey.of_content hc) ((Node.kind_of_content hc).trans hkind)
      (hmembers.congr fun i hi => hsame i (List.mem_cons_of_mem _ hi))
  | .mk id _, _, _, hsame, .array hnode hkey hkind helements => by
    obtain ⟨n', hn', hc⟩ := (hsame id List.mem_cons_self).exists hnode
    exact .array hn' (hkey.of_content hc) ((Node.kind_of_content hc).trans hkind)
      (helements.congr fun i hi => hsame i (List.mem_cons_of_mem _ hi))

theorem DenotesMembers.congr {nodes nodes' : List Node} :
    ∀ {ts : List NodeTree} {members : List (Bytes × Value)},
      (∀ id ∈ idsOf ts, SameContent nodes nodes' id) →
        DenotesMembers hash64 nodes ts members → DenotesMembers hash64 nodes' ts members
  | _, _, _, .nil => .nil
  | _, _, hsame, .cons head tail =>
    .cons (head.congr fun i hi => hsame i (List.mem_append_left _ hi))
      (tail.congr fun i hi => hsame i (List.mem_append_right _ hi))

end

theorem DenotesMembers.snoc {nodes : List Node} {ts : List NodeTree} {t : NodeTree}
    {members : List (Bytes × Value)} {key : Bytes} {value : Value}
    (h : DenotesMembers hash64 nodes ts members) (ht : t.Denotes hash64 nodes key value) :
    DenotesMembers hash64 nodes (ts ++ [t]) (members ++ [(key, value)]) := by
  induction ts generalizing members with
  | nil =>
    cases h
    exact .cons ht .nil
  | cons u us ih =>
    cases h with
    | cons head tail => exact .cons head (ih tail)

theorem SameContent.refl (nodes : List Node) (id : NodeId) : SameContent nodes nodes id :=
  Eq.refl _

/-- A store that keeps the content keeps every value. -/
theorem SameContent.modify {nodes nodes' : List Node} {f : Node → Node} {i id : NodeId}
    (h : SameContent nodes nodes' id) (hf : ∀ n, (f n).content = n.content) :
    SameContent nodes (nodes'.modify i f) id := by
  rw [SameContent, List.getElem?_modify, ← show _ = _ from h]
  cases nodes'[id]? with
  | none => rfl
  | some n =>
    by_cases hi : i = id
    · simp [hi, hf]
    · simp [hi]

/-! ## Open scopes -/

/-- The node of an open scope, and its finished children. -/
structure OpenNode where
  id : NodeId
  done : List NodeTree
deriving Repr

/-- The current scope, given the open nodes from the innermost on. -/
def scopeOf (opened : List OpenNode) : Option NodeId := opened.head?.map OpenNode.id

/-- The finished children of every open node and of the root are linked, each chain up
to the next open node; `stop` is what the innermost chain leads to. -/
def Spine (w : Writer) (stop : Option NodeId) : List OpenNode → List NodeTree → Prop
  | [], done => Ends w.rootFirst w.rootLast w.rootCount done stop ∧
      Siblings w.nodes none stop done
  | o :: outer, done =>
    (∃ node, w.nodes[o.id]? = some node ∧ node.parent = scopeOf outer ∧
      node.nextSibling = none ∧
      Ends node.firstChild node.lastChild node.childCount o.done stop) ∧
    Siblings w.nodes (some o.id) stop o.done ∧ Spine w (some o.id) outer done

/-- The nodes of the spine, those of the root's finished members first. -/
def spineIds : List OpenNode → List NodeTree → List NodeId
  | [], done => idsOf done
  | o :: outer, done => spineIds outer done ++ o.id :: idsOf o.done

/-- An open node is a scope of the builder. -/
structure ScopeMatches (hash64 : Bytes → UInt64) (nodes : List Node) (o : OpenNode)
    (scope : Scope) : Prop where
  node : ∃ node, nodes[o.id]? = some node ∧ node.HoldsKey hash64 scope.key ∧
    node.kind = scope.kind.kind
  members : DenotesMembers hash64 nodes o.done scope.members

/-- The finished nodes denote the members of the builder, at the root and in every open
scope. -/
structure Matches (hash64 : Bytes → UInt64) (nodes : List Node) (opened : List OpenNode)
    (done : List NodeTree) (b : Builder) : Prop where
  root : DenotesMembers hash64 nodes done b.members
  scopes : List.Forall₂ (ScopeMatches hash64 nodes) opened b.scopes
  keyless : Builder.KeylessScopes b.scopes

/-- The linked nodes of the writer are the tree of the builder. -/
structure Tracks (env : Env) (w : Writer) (b : Builder) : Prop where
  valid : w.errorFlag = false
  shape : ∃ opened done, w.currentScope = scopeOf opened ∧ Spine w none opened done ∧
    (spineIds opened done).Nodup ∧ Matches env.hash64 w.nodes opened done b

/-- The writer tracks the builder, and has one more node, which is linked to nothing
below or behind it. It hangs at the end of the current scope when `stop` says so. -/
structure Carries (env : Env) (w : Writer) (b : Builder) (stop : Option NodeId)
    (id : NodeId) (node : Node) : Prop where
  valid : w.errorFlag = false
  found : w.nodes[id]? = some node
  firstChild : node.firstChild = none
  lastChild : node.lastChild = none
  childCount : node.childCount = 0
  nextSibling : node.nextSibling = none
  shape : ∃ opened done, w.currentScope = scopeOf opened ∧ Spine w stop opened done ∧
    (spineIds opened done ++ [id]).Nodup ∧ Matches env.hash64 w.nodes opened done b ∧
    (stop = some id → node.parent = scopeOf opened)

theorem Spine.congr {w w' : Writer} {done : List NodeTree} :
    ∀ {stop : Option NodeId} {opened : List OpenNode}, Spine w stop opened done →
      (w'.rootFirst = w.rootFirst ∧ w'.rootLast = w.rootLast ∧ w'.rootCount = w.rootCount) →
        (∀ id ∈ spineIds opened done, w'.nodes[id]? = w.nodes[id]?) →
          Spine w' stop opened done
  | _, [], ⟨hends, hsiblings⟩, hroot, hsame => by
    refine ⟨?_, hsiblings.congr hsame⟩
    rw [hroot.1, hroot.2.1, hroot.2.2]
    exact hends
  | _, o :: outer, ⟨⟨node, hnode, hlinks⟩, hsiblings, houter⟩, hroot, hsame => by
    refine ⟨⟨node, ?_, hlinks⟩, hsiblings.congr fun i hi => ?_,
      houter.congr hroot fun i hi => ?_⟩
    · rw [hsame o.id (List.mem_append_right _ List.mem_cons_self), hnode]
    · exact hsame i (List.mem_append_right _ (List.mem_cons_of_mem _ hi))
    · exact hsame i (List.mem_append_left _ hi)

theorem ScopeMatches.congr {nodes nodes' : List Node} {o : OpenNode} {scope : Scope}
    (hsame : ∀ id ∈ o.id :: idsOf o.done, SameContent nodes nodes' id)
    (h : ScopeMatches hash64 nodes o scope) : ScopeMatches hash64 nodes' o scope := by
  obtain ⟨node, hnode, hkey, hkind⟩ := h.node
  obtain ⟨node', hnode', hc⟩ := (hsame _ List.mem_cons_self).exists hnode
  exact ⟨⟨node', hnode', hkey.of_content hc, (Node.kind_of_content hc).trans hkind⟩,
    h.members.congr fun i hi => hsame i (List.mem_cons_of_mem _ hi)⟩

theorem idsOf_subset_spineIds (opened : List OpenNode) (done : List NodeTree) :
    idsOf done ⊆ spineIds opened done := by
  induction opened with
  | nil => exact fun _ hi => hi
  | cons o outer ih => exact fun _ hi => List.mem_append_left _ (ih hi)

theorem Matches.congr {nodes nodes' : List Node} {opened : List OpenNode}
    {done : List NodeTree} {b : Builder}
    (hsame : ∀ id ∈ spineIds opened done, SameContent nodes nodes' id)
    (h : Matches hash64 nodes opened done b) : Matches hash64 nodes' opened done b := by
  obtain ⟨hroot, hscopes, hkeyless⟩ := h
  refine ⟨hroot.congr fun i hi => hsame i (idsOf_subset_spineIds _ _ hi), ?_, hkeyless⟩
  clear hkeyless
  generalize b.scopes = scopes at hscopes
  induction hscopes with
  | nil => exact .nil
  | cons head _ ih =>
    exact .cons (head.congr fun i hi => hsame i (List.mem_append_right _ hi))
      (ih fun i hi => hsame i (List.mem_append_left _ hi))

theorem Spine.lt_length {w : Writer} {done : List NodeTree} :
    ∀ {stop : Option NodeId} {opened : List OpenNode}, Spine w stop opened done →
      ∀ id ∈ spineIds opened done, id < w.nodes.length
  | _, [], ⟨_, hsiblings⟩, i, hi => hsiblings.lt_length i hi
  | _, _ :: _, ⟨⟨_, hnode, _⟩, hsiblings, houter⟩, i, hi => by
    rcases List.mem_append.mp hi with hi | hi
    · exact houter.lt_length i hi
    · rcases List.mem_cons.mp hi with rfl | hi
      · exact (List.getElem?_eq_some_iff.mp hnode).1
      · exact hsiblings.lt_length i hi

/-! ## Stores -/

theorem Writer.store_eq {w : Writer} {id : NodeId} {node : Node} (f : Node → Node)
    (h : w.nodes[id]? = some node) :
    w.store (some id) f = some { w with nodes := w.nodes.modify id f } := by
  have hlt := (List.getElem?_eq_some_iff.mp h).1
  simp [Writer.store, hlt]

theorem getElem?_modify_self {nodes : List Node} {id : NodeId} {node : Node} (f : Node → Node)
    (h : nodes[id]? = some node) : (nodes.modify id f)[id]? = some (f node) := by
  rw [List.getElem?_modify_eq, h]
  rfl

/-- A store to a node does not touch the others. -/
theorem getElem?_modify_of_notMem {nodes : List Node} {id i : NodeId} {ids : List NodeId}
    (f : Node → Node) (hid : id ∉ ids) (hi : i ∈ ids) :
    (nodes.modify id f)[i]? = nodes[i]? :=
  List.getElem?_modify_ne f nodes fun heq => hid (heq ▸ hi)

/-- A store to the new node that does not touch its links. -/
theorem Carries.store {env : Env} {w : Writer} {b : Builder} {stop : Option NodeId}
    {id : NodeId} {node : Node} (f : Node → Node) (h : Carries env w b stop id node)
    (hlinks : (f node).parent = node.parent ∧ (f node).firstChild = node.firstChild ∧
      (f node).lastChild = node.lastChild ∧ (f node).childCount = node.childCount ∧
      (f node).nextSibling = node.nextSibling) :
    w.store (some id) f = some { w with nodes := w.nodes.modify id f } ∧
      Carries env { w with nodes := w.nodes.modify id f } b stop id (f node) := by
  obtain ⟨opened, done, hcurrent, hspine, hnodup, hmatches, hparent⟩ := h.shape
  obtain ⟨hp, hf, hl, hc, hn⟩ := hlinks
  have hid : id ∉ spineIds opened done := fun hmem =>
    (List.nodup_append.mp hnodup).2.2 id hmem id (List.mem_singleton_self id) rfl
  have hsame : ∀ i ∈ spineIds opened done, (w.nodes.modify id f)[i]? = w.nodes[i]? :=
    fun i hi => getElem?_modify_of_notMem f hid hi
  refine ⟨w.store_eq f h.found, h.valid, getElem?_modify_self f h.found,
    hf.trans h.firstChild, hl.trans h.lastChild, hc.trans h.childCount,
    hn.trans h.nextSibling, opened, done, hcurrent,
    hspine.congr ⟨rfl, rfl, rfl⟩ hsame, hnodup, ?_,
    fun hs => hp.trans (hparent hs)⟩
  refine hmatches.congr fun i hi => ?_
  rw [SameContent, hsame i hi]

/-! ## Hanging a node below the current scope -/

theorem count_succ (n : Nat) : UInt32.ofNat n + 1 = UInt32.ofNat (n + 1) := by
  apply UInt32.toNat_inj.mp
  have hone : (1 : UInt32).toNat = 1 := rfl
  rw [UInt32.toNat_add, UInt32.toNat_ofNat', UInt32.toNat_ofNat', hone]
  omega

/-- At the root: `root_first` or the last member's `next_sibling`, then `root_last`. -/
theorem appendToScope_root {w : Writer} {done : List NodeTree} {id : NodeId} {node : Node}
    (hcurrent : w.currentScope = none) (hspine : Spine w none [] done)
    (hnodup : (idsOf done ++ [id]).Nodup) (hnode : w.nodes[id]? = some node) :
    ∃ w', appendToScope w id = some w' ∧ w'.currentScope = w.currentScope ∧
      w'.arenaUsed = w.arenaUsed ∧ w'.errorFlag = w.errorFlag ∧ Spine w' (some id) [] done ∧
      w'.nodes[id]? = some { node with parent := none } ∧
      ∀ i ∈ idsOf done, SameContent w.nodes w'.nodes i := by
  obtain ⟨⟨hfirst, hlast, hcount⟩, hsiblings⟩ := hspine
  obtain ⟨hdone, -, hdisjoint⟩ := List.nodup_append.mp hnodup
  have hid : id ∉ idsOf done := fun hmem => hdisjoint id hmem id (List.mem_singleton_self id) rfl
  have hsame : ∀ i ∈ idsOf done, ∀ f, (w.nodes.modify id f)[i]? = w.nodes[i]? :=
    fun i hi f => getElem?_modify_of_notMem f hid hi
  have hcount' : w.rootCount + 1 = UInt32.ofNat (done.length + 1) := by
    rw [hcount, Option.toList_none, List.length_nil, Nat.add_zero, count_succ]
  simp only [appendToScope, hcurrent, w.store_eq _ hnode, bind, Option.bind, pure]
  cases hdone' : done.getLast? with
  | none =>
    -- the first member
    obtain rfl := List.getLast?_eq_none_iff.mp hdone'
    rw [hfirst]
    exact ⟨_, rfl, rfl, rfl, rfl, ⟨⟨rfl, rfl, hcount'⟩, trivial⟩,
      getElem?_modify_self _ hnode, fun i hi => absurd hi List.not_mem_nil⟩
  | some t =>
    have hlast' : w.rootLast = some t.nodeId := by rw [hlast, lastId, hdone']; rfl
    have htmem : t.nodeId ∈ idsOf done := lastId_mem (hlast ▸ hlast')
    obtain ⟨last, hlastnode⟩ : ∃ last, w.nodes[t.nodeId]? = some last :=
      ⟨_, List.getElem?_eq_getElem (hsiblings.lt_length _ htmem)⟩
    have hfirst' : ∃ first, w.rootFirst = some first := by
      rw [hfirst]
      cases done with
      | nil => cases hdone'
      | cons u us => exact ⟨_, rfl⟩
    obtain ⟨first, hfirst'⟩ := hfirst'
    have hlastnode' : (w.nodes.modify id fun n => { n with parent := none })[t.nodeId]?
        = some last := by rw [hsame _ htmem, hlastnode]
    simp only [hfirst', hlast']
    rw [Writer.store_eq _ hlastnode']
    have hne : t.nodeId ≠ id := fun heq => hid (heq ▸ htmem)
    refine ⟨_, rfl, rfl, rfl, rfl, ⟨⟨?_, rfl, hcount'⟩, ?_⟩, ?_, fun i hi => ?_⟩
    · change some first = firstId done (some id)
      rw [← hfirst', hfirst]
      cases done with
      | nil => cases hdone'
      | cons u us => rfl
    · refine hsiblings.extend hdone (fun i hi => ?_) fun i hi hne' => ?_
      · have hi' : i = t.nodeId := by
          rw [← hlast, hlast'] at hi
          exact (Option.some.inj hi).symm
        subst hi'
        rw [List.getElem?_modify_eq, hsame _ htmem]
        rfl
      · rw [List.getElem?_modify_ne, hsame i hi]
        rw [← hlast, hlast'] at hne'
        exact fun heq => hne' (congrArg some heq)
    · rw [List.getElem?_modify_ne _ _ hne, getElem?_modify_self _ hnode]
    · refine ((SameContent.refl _ i).modify ?_).modify ?_ <;> exact fun _ => rfl

/-- In a scope: `first_child` or the last child's `next_sibling`, then `last_child`. -/
theorem appendToScope_scope {w : Writer} {o : OpenNode} {outer : List OpenNode}
    {done : List NodeTree} {id : NodeId} {node : Node} (hcurrent : w.currentScope = some o.id)
    (hspine : Spine w none (o :: outer) done)
    (hnodup : (spineIds (o :: outer) done ++ [id]).Nodup) (hnode : w.nodes[id]? = some node) :
    ∃ w', appendToScope w id = some w' ∧ w'.currentScope = w.currentScope ∧
      w'.arenaUsed = w.arenaUsed ∧ w'.errorFlag = w.errorFlag ∧
      Spine w' (some id) (o :: outer) done ∧
      w'.nodes[id]? = some { node with parent := some o.id } ∧
      ∀ i ∈ spineIds (o :: outer) done, SameContent w.nodes w'.nodes i := by
  obtain ⟨⟨scope, hscope, hparent, hnext, hfirst, hlast, hcount⟩, hsiblings, houter⟩ := hspine
  obtain ⟨hspinenodup, -, hdisjoint⟩ := List.nodup_append.mp hnodup
  rw [spineIds, List.nodup_append] at hspinenodup
  obtain ⟨-, honodup, hodisjoint⟩ := hspinenodup
  obtain ⟨hodone, hdone⟩ := List.nodup_cons.mp honodup
  have hne : ∀ i ∈ spineIds (o :: outer) done, id ≠ i := fun i hi heq =>
    hdisjoint i hi id (List.mem_singleton_self id) heq.symm
  have hmem : ∀ i ∈ idsOf o.done, i ∈ spineIds (o :: outer) done := fun i hi =>
    List.mem_append_right _ (List.mem_cons_of_mem _ hi)
  have hscope_ne : id ≠ o.id := hne _ (List.mem_append_right _ List.mem_cons_self)
  have hcount' : scope.childCount + 1 = UInt32.ofNat (o.done.length + 1) := by
    rw [hcount, Option.toList_none, List.length_nil, Nat.add_zero, count_succ]
  have hscope' : (w.nodes.modify id fun n => { n with parent := some o.id })[o.id]?
      = some scope := by rw [List.getElem?_modify_ne _ _ hscope_ne, hscope]
  simp only [appendToScope, hcurrent, w.store_eq _ hnode, bind, Option.bind, Writer.deref,
    hscope']
  cases hdone' : o.done.getLast? with
  | none =>
    -- the first child
    have hnil : o.done = [] := List.getLast?_eq_none_iff.mp hdone'
    rw [hnil] at hfirst
    simp only [hfirst, firstId]
    rw [Writer.store_eq _ hscope']
    simp only
    rw [Writer.store_eq _ (getElem?_modify_self _ hscope')]
    refine ⟨_, rfl, rfl, rfl, rfl, ⟨⟨_, getElem?_modify_self _ (getElem?_modify_self _ hscope'),
      hparent, hnext, ?_, rfl, hcount'⟩, ?_, ?_⟩, ?_, fun i hi => ?_⟩
    · rw [hnil]
      rfl
    · rw [hnil]
      trivial
    · refine houter.congr ⟨rfl, rfl, rfl⟩ fun i hi => ?_
      have hio : o.id ≠ i := fun heq => hodisjoint i hi o.id List.mem_cons_self heq.symm
      rw [List.getElem?_modify_ne _ _ hio, List.getElem?_modify_ne _ _ hio,
        List.getElem?_modify_ne _ _ (hne i (List.mem_append_left _ hi))]
    · rw [List.getElem?_modify_ne _ _ hscope_ne.symm, List.getElem?_modify_ne _ _ hscope_ne.symm,
        getElem?_modify_self _ hnode]
    · refine (((SameContent.refl _ i).modify ?_).modify ?_).modify ?_ <;> exact fun _ => rfl
  | some t =>
    have hlast' : scope.lastChild = some t.nodeId := by rw [hlast, lastId, hdone']; rfl
    have htmem : t.nodeId ∈ idsOf o.done := lastId_mem (hlast ▸ hlast')
    obtain ⟨last, hlastnode⟩ : ∃ last, w.nodes[t.nodeId]? = some last :=
      ⟨_, List.getElem?_eq_getElem (hsiblings.lt_length _ htmem)⟩
    obtain ⟨first, hfirst'⟩ : ∃ first, scope.firstChild = some first := by
      rw [hfirst]
      cases hd : o.done with
      | nil => rw [hd] at hdone'; cases hdone'
      | cons u us => exact ⟨_, rfl⟩
    have ht_ne : id ≠ t.nodeId := hne _ (hmem _ htmem)
    have hto_ne : t.nodeId ≠ o.id := fun heq => hodone (heq ▸ htmem)
    have hlastnode' : (w.nodes.modify id fun n => { n with parent := some o.id })[t.nodeId]?
        = some last := by rw [List.getElem?_modify_ne _ _ ht_ne, hlastnode]
    simp only [hfirst', hlast']
    rw [Writer.store_eq _ hlastnode']
    simp only
    rw [Writer.store_eq _ ((List.getElem?_modify_ne _ _ hto_ne).trans hscope')]
    refine ⟨_, rfl, rfl, rfl, rfl, ⟨⟨_, getElem?_modify_self _
      ((List.getElem?_modify_ne _ _ hto_ne).trans hscope'), hparent, hnext, ?_, rfl, hcount'⟩,
      ?_, ?_⟩, ?_, fun i hi => ?_⟩
    · rw [hfirst]
      cases hd : o.done with
      | nil => rw [hd] at hdone'; cases hdone'
      | cons u us => rfl
    · refine hsiblings.extend hdone (fun i hi => ?_) fun i hi hne' => ?_
      · have hi' : i = t.nodeId := by
          rw [← hlast, hlast'] at hi
          exact (Option.some.inj hi).symm
        subst hi'
        rw [List.getElem?_modify_ne _ _ hto_ne.symm, List.getElem?_modify_eq,
          List.getElem?_modify_ne _ _ ht_ne]
        rfl
      · rw [← hlast, hlast'] at hne'
        have hio : o.id ≠ i := fun heq => hodone (heq ▸ hi)
        rw [List.getElem?_modify_ne _ _ hio,
          List.getElem?_modify_ne _ _ fun heq => hne' (congrArg some heq),
          List.getElem?_modify_ne _ _ (hne i (hmem i hi))]
    · refine houter.congr ⟨rfl, rfl, rfl⟩ fun i hi => ?_
      have hio : o.id ≠ i := fun heq => hodisjoint i hi o.id List.mem_cons_self heq.symm
      have hit : t.nodeId ≠ i := fun heq =>
        hodisjoint i hi t.nodeId (List.mem_cons_of_mem _ htmem) heq.symm
      rw [List.getElem?_modify_ne _ _ hio, List.getElem?_modify_ne _ _ hit,
        List.getElem?_modify_ne _ _ (hne i (List.mem_append_left _ hi))]
    · rw [List.getElem?_modify_ne _ _ hscope_ne.symm, List.getElem?_modify_ne _ _ ht_ne.symm,
        getElem?_modify_self _ hnode]
    · refine (((SameContent.refl _ i).modify ?_).modify ?_).modify ?_ <;> exact fun _ => rfl

/-- `append_to_scope` hangs the new node below the current scope, wherever that is. -/
theorem appendToScope_carries {env : Env} {w : Writer} {b : Builder} {id : NodeId} {node : Node}
    (h : Carries env w b none id node) :
    ∃ w' node', appendToScope w id = some w' ∧ node'.content = node.content ∧
      w'.arenaUsed = w.arenaUsed ∧ Carries env w' b (some id) id node' := by
  obtain ⟨opened, done, hcurrent, hspine, hnodup, hmatches, -⟩ := h.shape
  cases opened with
  | nil =>
    obtain ⟨w', heq, hcurrent', hused, hflag, hspine', hnode', hsame⟩ :=
      appendToScope_root hcurrent hspine hnodup h.found
    exact ⟨w', { node with parent := none }, heq, rfl, hused, hflag.trans h.valid, hnode',
      h.firstChild, h.lastChild, h.childCount, h.nextSibling,
      [], done, hcurrent'.trans hcurrent, hspine', hnodup, hmatches.congr hsame, fun _ => rfl⟩
  | cons o outer =>
    obtain ⟨w', heq, hcurrent', hused, hflag, hspine', hnode', hsame⟩ :=
      appendToScope_scope hcurrent hspine hnodup h.found
    exact ⟨w', { node with parent := some o.id }, heq, rfl, hused, hflag.trans h.valid, hnode',
      h.firstChild, h.lastChild, h.childCount, h.nextSibling,
      o :: outer, done, hcurrent'.trans hcurrent, hspine', hnodup, hmatches.congr hsame,
      fun _ => rfl⟩

/-- The node just hung is the one the payload goes to. -/
theorem Carries.lastAdded {env : Env} {w : Writer} {b : Builder} {id : NodeId} {node : Node}
    (h : Carries env w b (some id) id node) : w.lastAdded = some (some id) := by
  obtain ⟨opened, done, hcurrent, hspine, -, -, -⟩ := h.shape
  cases opened with
  | nil =>
    obtain ⟨⟨-, hlast, -⟩, -⟩ := hspine
    rw [Writer.lastAdded, hcurrent]
    exact congrArg some hlast
  | cons o outer =>
    obtain ⟨⟨scope, hscope, -, -, -, hlast, -⟩, -, -⟩ := hspine
    rw [Writer.lastAdded, hcurrent]
    simp only [scopeOf, List.head?_cons, Option.map_some, Writer.deref, bind, Option.bind, hscope]
    exact congrArg some hlast

/-! ## Finishing a node -/

theorem Ends.snoc {first last : Option NodeId} {count : UInt32} {ts : List NodeTree}
    {t : NodeTree} (h : Ends first last count ts (some t.nodeId)) :
    Ends first last count (ts ++ [t]) none where
  first_eq := by
    rw [firstId_append]
    exact h.first_eq
  last_eq := by
    rw [h.last_eq, lastId, lastId, List.getLast?_concat]
    rfl
  count_eq := by
    rw [h.count_eq, List.length_append]
    rfl

/-- The scope of the builder that an open node stands for, or the root. -/
theorem Matches.add {nodes : List Node} {opened : List OpenNode} {done : List NodeTree}
    {b : Builder} {t : NodeTree} {key : Bytes} {value : Value}
    (h : Matches hash64 nodes opened done b) (ht : t.Denotes hash64 nodes key value)
    (hkeyless : b.keyed = false → key = []) :
    match opened with
    | [] => Matches hash64 nodes [] (done ++ [t]) (b.add key value)
    | o :: outer =>
      Matches hash64 nodes ({ o with done := o.done ++ [t] } :: outer) done (b.add key value) := by
  obtain ⟨members, scopes⟩ := b
  obtain ⟨hroot, hscopes, hscope⟩ := h
  cases hscopes with
  | nil => exact ⟨hroot.snoc ht, .nil, trivial⟩
  | @cons o scope outer scopes head tail =>
    obtain ⟨hmembers, houter⟩ := hscope
    refine ⟨hroot, .cons ⟨head.node, head.members.snoc ht⟩ tail, fun harray m hm => ?_, houter⟩
    rcases List.mem_append.mp hm with hm | hm
    · exact hmembers harray m hm
    · rw [List.mem_singleton.mp hm]
      exact hkeyless (by simp [Builder.keyed, show scope.kind = .array from harray])

/-- A finished node fills the end of the innermost chain. -/
theorem tracks_of_filled {env : Env} {w : Writer} {b : Builder} {opened : List OpenNode}
    {done : List NodeTree} {key : Bytes} {value : Value} (t : NodeTree)
    (hvalid : w.errorFlag = false) (hcurrent : w.currentScope = scopeOf opened)
    (hspine : Spine w (some t.nodeId) opened done)
    (hnodup : (spineIds opened done ++ t.ids).Nodup)
    (hlinked : LinkedAt w.nodes (scopeOf opened) none t)
    (hmatches : Matches env.hash64 w.nodes opened done b)
    (hdenotes : t.Denotes env.hash64 w.nodes key value)
    (hkeyless : b.keyed = false → key = []) : Tracks env w (b.add key value) := by
  have hadd := hmatches.add hdenotes hkeyless
  cases opened with
  | nil =>
    obtain ⟨hends, hsiblings⟩ := hspine
    refine ⟨hvalid, [], done ++ [t], hcurrent, ⟨hends.snoc, hsiblings.snoc hlinked⟩, ?_, hadd⟩
    rwa [spineIds, idsOf_append, idsOf, idsOf, List.append_nil]
  | cons o outer =>
    obtain ⟨⟨node, hnode, hparent, hnext, hends⟩, hsiblings, houter⟩ := hspine
    refine ⟨hvalid, { o with done := o.done ++ [t] } :: outer, done, hcurrent,
      ⟨⟨node, hnode, hparent, hnext, hends.snoc⟩, hsiblings.snoc hlinked, houter⟩, ?_, hadd⟩
    rw [spineIds, idsOf_append, idsOf, idsOf, List.append_nil]
    rwa [spineIds, List.append_assoc, List.cons_append] at hnodup

/-- A hung leaf with its payload is a member. -/
theorem Carries.leaf {env : Env} {w : Writer} {b : Builder} {id : NodeId} {node : Node}
    {key : Bytes} {s : Scalar} (h : Carries env w b (some id) id node)
    (hkey : node.HoldsKey env.hash64 key) (hkind : node.kind = s.kind)
    (hpayload : node.HoldsPayload s) (hkeyless : b.keyed = false → key = []) :
    Tracks env w (b.add key (.scalar s)) := by
  obtain ⟨opened, done, hcurrent, hspine, hnodup, hmatches, hparent⟩ := h.shape
  refine tracks_of_filled (.mk id []) h.valid hcurrent hspine hnodup ?_ hmatches
    (.scalar h.found hkey hkind hpayload) hkeyless
  exact ⟨node, h.found, hparent rfl, h.nextSibling, ⟨h.firstChild, h.lastChild, h.childCount⟩,
    trivial⟩

/-- A hung container becomes the current scope. -/
theorem Carries.scope {env : Env} {w : Writer} {b : Builder} {id : NodeId} {node : Node}
    {key : Bytes} {kind : ScopeKind} (h : Carries env w b (some id) id node)
    (hkey : node.HoldsKey env.hash64 key)
    (hkind : node.kind = kind.kind) (hkeyless : b.keyed = false → key = []) :
    Tracks env { w with currentScope := some id }
      { b with scopes := { kind, key, members := [] } :: b.scopes } := by
  obtain ⟨opened, done, hcurrent, hspine, hnodup, hmatches, hparent⟩ := h.shape
  refine ⟨h.valid, ⟨id, []⟩ :: opened, done, rfl, ⟨⟨node, h.found, hparent rfl, h.nextSibling,
    ⟨h.firstChild, h.lastChild, h.childCount⟩⟩, trivial, ?_⟩, hnodup, hmatches.root,
    .cons ⟨⟨node, h.found, hkey, hkind⟩, .nil⟩ hmatches.scopes,
    fun _ _ hm => absurd hm List.not_mem_nil, fun around haround harray => hkeyless ?_,
    hmatches.keyless⟩
  · exact hspine.congr ⟨rfl, rfl, rfl⟩ fun _ _ => rfl
  · obtain ⟨members, scopes⟩ := b
    cases scopes with
    | nil => cases haround
    | cons scope outer =>
      cases haround
      simp [Builder.keyed, harray]

/-! ## Allocation -/

/-- The arena refuses, now or later: a call of the allocator fails, or `size` more bytes
do not fit. -/
def Exhausted (env : Env) (w : Writer) (size : Nat) : Prop :=
  (∃ i, env.arenaAllocates i = false) ∨ 2 ^ 63 ≤ w.arenaUsed + size

theorem Exhausted.mono {env : Env} {w w' : Writer} {size size' : Nat}
    (h : Exhausted env w size) (hle : w.arenaUsed + size ≤ w'.arenaUsed + size') :
    Exhausted env w' size' := by
  rcases h with h | h
  · exact .inl h
  · exact .inr (h.trans hle)

theorem arenaAllocate_cases (env : Env) (w : Writer) (size : Nat) :
    (arenaAllocate env w size = (true, { w with
        arenaCalls := w.arenaCalls + 1, arenaUsed := w.arenaUsed + size }) ∧
      w.arenaUsed + size < 2 ^ 63) ∨
    (arenaAllocate env w size = (false, { w with arenaCalls := w.arenaCalls + 1 }) ∧
      Exhausted env w size) := by
  unfold arenaAllocate
  by_cases h : env.arenaAllocates w.arenaCalls = true ∧ w.arenaUsed + size < 2 ^ 63
  · exact .inl ⟨if_pos h, h.2⟩
  · refine .inr ⟨if_neg h, ?_⟩
    by_cases ha : env.arenaAllocates w.arenaCalls = true
    · exact .inr (Nat.le_of_not_lt fun hlt => h ⟨ha, hlt⟩)
    · exact .inl ⟨_, Bool.eq_false_iff.mpr ha⟩

/-- A copy is the bytes, with none of them counted against the arena when there are
none. -/
theorem arenaClone_cases (env : Env) (w : Writer) (data : Bytes) (hw : w.arenaUsed < 2 ^ 63) :
    (∃ calls, arenaClone env w data = (true, cloned data, { w with
        arenaCalls := calls, arenaUsed := w.arenaUsed + data.length }) ∧
      w.arenaUsed + data.length < 2 ^ 63) ∨
    (arenaClone env w data = (false, none, { w with arenaCalls := w.arenaCalls + 1 }) ∧
      Exhausted env w data.length) := by
  unfold arenaClone cloned
  by_cases hdata : data.length = 0
  · refine .inl ⟨w.arenaCalls, ?_, ?_⟩
    · rw [if_pos hdata, if_pos hdata, hdata]
      rfl
    · omega
  · rw [if_neg hdata, if_neg hdata]
    rcases arenaAllocate_cases env w data.length with ⟨heq, hlt⟩ | ⟨heq, hex⟩
    · exact .inl ⟨_, by rw [heq]; rfl, hlt⟩
    · exact .inr ⟨by rw [heq]; rfl, hex⟩

/-- A new node is carried along. -/
theorem allocNode_cases {env : Env} {w : Writer} {b : Builder} (h : Tracks env w b) :
    (∃ w', allocNode env w = (some w.nodes.length, w') ∧
      w'.arenaUsed = w.arenaUsed + nodeSize ∧ w'.arenaUsed < 2 ^ 63 ∧
      Carries env w' b none w.nodes.length Node.zero) ∨
    (∃ w', allocNode env w = (none, w') ∧ w'.errorFlag = true ∧ Exhausted env w nodeSize) := by
  obtain ⟨opened, done, hcurrent, hspine, hnodup, hmatches⟩ := h.shape
  unfold allocNode
  rcases arenaAllocate_cases env w nodeSize with ⟨heq, hlt⟩ | ⟨heq, hex⟩
  · rw [heq]
    refine .inl ⟨_, rfl, rfl, hlt, h.valid, ?_, rfl, rfl, rfl, rfl, opened, done,
      hcurrent, ?_, ?_, ?_, fun hs => nomatch hs⟩
    · exact List.getElem?_concat_length
    · exact hspine.congr ⟨rfl, rfl, rfl⟩ fun i hi =>
        List.getElem?_append_left (hspine.lt_length i hi)
    · refine List.nodup_append.mpr ⟨hnodup, List.nodup_singleton _, fun i hi j hj heq => ?_⟩
      rw [List.mem_singleton] at hj
      exact absurd (hspine.lt_length i hi) (by rw [heq, hj]; exact Nat.lt_irrefl _)
    · refine hmatches.congr fun i hi => ?_
      exact congrArg (Option.map Node.content)
        (List.getElem?_append_left (hspine.lt_length i hi))
  · rw [heq]
    exact .inr ⟨_, rfl, rfl, hex⟩

/-- The allocation does not change what it does not own. -/
theorem Carries.of_arena {env : Env} {w : Writer} {b : Builder} {stop : Option NodeId}
    {id : NodeId} {node : Node} (h : Carries env w b stop id node) (calls used : Nat) :
    Carries env { w with arenaCalls := calls, arenaUsed := used } b stop id node := by
  obtain ⟨opened, done, hcurrent, hspine, hnodup, hmatches, hparent⟩ := h.shape
  exact ⟨h.valid, h.found, h.firstChild, h.lastChild, h.childCount, h.nextSibling, opened, done,
    hcurrent, hspine.congr ⟨rfl, rfl, rfl⟩ fun _ _ => rfl, hnodup, hmatches, hparent⟩

/-- `set_key` stores the key that the builder takes the argument for. -/
theorem setKey_cases {env : Env} {w : Writer} {b : Builder} {id : NodeId} {node : Node}
    (h : Carries env w b none id node) (hw : w.arenaUsed < 2 ^ 63) (key : KeyArg) :
    (∃ w' bytes, setKey env w id key = some (true, w') ∧ Builder.keyOf key = some bytes ∧
      key.bytes = some bytes ∧ w'.arenaUsed = w.arenaUsed + bytes.length ∧
      w'.arenaUsed < 2 ^ 63 ∧
      Carries env w' b none id { node with
        keyData := cloned bytes
        keyLength := UInt32.ofNat bytes.length
        keyHash64 := env.hash64 bytes }) ∨
    (∃ w', setKey env w id key = some (false, w') ∧
      (Builder.keyOf key = none ∨
        ∃ bytes, key.bytes = some bytes ∧ Exhausted env w bytes.length)) := by
  have hkeyOf : Builder.keyOf key = key.bytes.bind fun bytes =>
      if bytes.length ≤ lengthMax then some bytes else none := by
    cases key with
    | null length =>
      simp only [Builder.keyOf, KeyArg.bytes]
      by_cases hl : length = 0 <;> simp [hl]
    | data bytes => rfl
  unfold setKey
  cases hbytes : key.bytes with
  | none => exact .inr ⟨w, rfl, .inl (by rw [hkeyOf, hbytes]; rfl)⟩
  | some bytes =>
    simp only
    by_cases hlen : bytes.length > lengthMax
    · rw [if_pos hlen]
      exact .inr ⟨w, rfl, .inl (by
        rw [hkeyOf, hbytes]
        exact if_neg (Nat.not_le.mpr hlen))⟩
    · rw [if_neg hlen]
      have hkey : Builder.keyOf key = some bytes := by
        rw [hkeyOf, hbytes]
        exact if_pos (Nat.not_lt.mp hlen)
      rcases arenaClone_cases env w bytes hw with ⟨calls, heq, hlt⟩ | ⟨heq, hex⟩
      · rw [heq]
        obtain ⟨hstore, hcarries⟩ := (h.of_arena calls (w.arenaUsed + bytes.length)).store
          (fun n => { n with
            keyData := cloned bytes
            keyLength := UInt32.ofNat bytes.length
            keyHash64 := env.hash64 bytes }) ⟨rfl, rfl, rfl, rfl, rfl⟩
        refine .inl ⟨_, bytes, ?_, hkey, rfl, ?_, ?_, hcarries⟩
        · simp only [hstore, bind, Option.bind, pure]
        · rfl
        · exact hlt
      · rw [heq]
        exact .inr ⟨_, rfl, .inr ⟨bytes, rfl, hex⟩⟩

/-! ## Calls -/

/-- The bytes of the arena a key argument may take. -/
def KeyArg.size : KeyArg → Nat
  | .null _ => 0
  | .data bytes => bytes.length

/-- The bytes of the arena a scalar takes besides its node. -/
def Scalar.size : Scalar → Nat
  | .string value => value.length
  | _ => 0

/-- The key under which the builder puts a member, given what comes with the call. -/
def Builder.place (b : Builder) : Option KeyArg → Option Bytes
  | some key => if b.keyed then Builder.keyOf key else none
  | none => if b.keyed then none else some []

theorem Builder.length_of_keyOf {key : KeyArg} {k : Bytes} (h : Builder.keyOf key = some k) :
    k.length = key.size ∧ k.length ≤ lengthMax := by
  cases key with
  | null length =>
    simp only [Builder.keyOf] at h
    split at h
    · cases h
      exact ⟨rfl, Nat.zero_le _⟩
    · cases h
  | data bytes =>
    simp only [Builder.keyOf] at h
    split at h
    · cases h
      exact ⟨rfl, by assumption⟩
    · cases h

theorem Builder.keyless_of_place {b : Builder} {key : Option KeyArg} {k : Bytes}
    (h : b.place key = some k) (hb : b.keyed = false) : k = [] := by
  cases key with
  | none =>
    simp only [Builder.place, hb, Bool.false_eq_true, if_false] at h
    exact (Option.some.inj h).symm
  | some key => simp [Builder.place, hb] at h

theorem Builder.length_of_place {b : Builder} {key : Option KeyArg} {k : Bytes}
    (h : b.place key = some k) : k.length = (key.map KeyArg.size).getD 0 := by
  cases key with
  | none =>
    rw [Builder.place] at h
    split at h
    · cases h
    · cases h
      rfl
  | some key =>
    rw [Builder.place] at h
    split at h
    · exact (Builder.length_of_keyOf h).1
    · cases h

theorem KeyArg.length_of_bytes {key : KeyArg} {bytes : Bytes} (h : key.bytes = some bytes) :
    bytes.length = key.size := by
  cases key with
  | null length =>
    simp only [KeyArg.bytes] at h
    split at h
    · cases h
    · cases h
      rfl
  | data data =>
    cases h
    rfl

/-- The writer and the builder agree on what the current scope takes. -/
theorem Tracks.expect {env : Env} {w : Writer} {b : Builder} (h : Tracks env w b) :
    expectKeyedScope w = some b.keyed ∧ expectIndexedScope w = some (!b.keyed) := by
  obtain ⟨opened, done, hcurrent, -, -, hmatches⟩ := h.shape
  obtain ⟨members, scopes⟩ := b
  obtain ⟨-, hscopes⟩ := hmatches
  cases hscopes with
  | nil => simp [expectKeyedScope, expectIndexedScope, hcurrent, scopeOf, Builder.keyed]
  | @cons o scope outer scopes head tail =>
    obtain ⟨node, hnode, -, hkind⟩ := head.node
    simp only [expectKeyedScope, expectIndexedScope, hcurrent, scopeOf, List.head?_cons,
      Option.map_some, Writer.deref, bind, Option.bind, hnode, hkind, pure, Builder.keyed]
    cases scope.kind <;> exact ⟨rfl, rfl⟩

theorem Node.zero_holdsKey (kind : Kind) :
    { Node.zero with kind }.HoldsKey hash64 [] where
  length_le := Nat.zero_le _
  data := rfl
  length := rfl
  hash hne := absurd rfl hne
  uncached _ := rfl

/-- `add_leaf` hangs a node of the kind under the key the builder has for it. -/
theorem addLeaf_cases {env : Env} {w : Writer} {b : Builder} (h : Tracks env w b)
    (key : Option KeyArg) (kind : Kind) :
    (∃ w' id node k, addLeaf env w key kind = some (true, w') ∧ b.place key = some k ∧
      Carries env w' b (some id) id node ∧ node.HoldsKey env.hash64 k ∧ node.kind = kind ∧
      w'.arenaUsed = w.arenaUsed + nodeSize + k.length ∧ w'.arenaUsed < 2 ^ 63) ∨
    (∃ w', addLeaf env w key kind = some (false, w') ∧ w'.errorFlag = true ∧
      (b.place key = none ∨ Exhausted env w (nodeSize + (key.map KeyArg.size).getD 0))) := by
  obtain ⟨hkeyed, hindexed⟩ := h.expect
  have hexpected : (if key.isSome then expectKeyedScope w else expectIndexedScope w)
      = some (if key.isSome then b.keyed else !b.keyed) := by
    split <;> assumption
  unfold addLeaf
  rw [if_neg (by simp [h.valid]), hexpected]
  simp only [bind, Option.bind]
  -- a key where none is wanted, or none where one is, is refused before a node is made
  by_cases hscope : (if key.isSome then b.keyed else !b.keyed) = true
  swap
  · rw [if_pos (by simpa using hscope)]
    refine .inr ⟨_, rfl, rfl, .inl ?_⟩
    cases key with
    | none => simpa [Builder.place] using hscope
    | some key => exact if_neg hscope
  rw [if_neg (by simpa using hscope)]
  -- the arena may be full, for the node and again for its key
  rcases allocNode_cases h with ⟨w₁, heq, hused, hlt, hcarries⟩ | ⟨w₁, heq, hflag, hex⟩
  swap
  · rw [heq]
    exact .inr ⟨_, rfl, hflag, .inr (hex.mono (by omega))⟩
  rw [heq]
  obtain ⟨hstore, hcarries⟩ := hcarries.store (fun n => { n with kind }) ⟨rfl, rfl, rfl, rfl, rfl⟩
  simp only [hstore]
  cases key with
  | none =>
    obtain ⟨w', node', happend, hcontent, hused', hcarries'⟩ := appendToScope_carries hcarries
    have hplace : b.place none = some [] := by
      simpa [Builder.place] using hscope
    refine .inl ⟨w', _, node', [], by simp only [happend, pure], hplace, hcarries',
      (Node.zero_holdsKey kind).of_content hcontent, Node.kind_of_content hcontent, ?_, ?_⟩
    · rw [hused']
      exact hused
    · rw [hused']
      exact hlt
  | some key =>
    have hplace : b.place (some key) = Builder.keyOf key := by
      simp only [Builder.place]
      exact if_pos hscope
    simp only
    rcases setKey_cases hcarries hlt key with
      ⟨w₂, bytes, hset, hkey, -, hused₂, hlt₂, hcarries₂⟩ | ⟨w₂, hset, hwhy⟩
    · rw [hset]
      obtain ⟨w', node', happend, hcontent, hused', hcarries'⟩ := appendToScope_carries hcarries₂
      refine .inl ⟨w', _, node', bytes, by simp [happend], hplace.trans hkey, hcarries', ?_,
        Node.kind_of_content hcontent, ?_, hused' ▸ hlt₂⟩
      · exact Node.HoldsKey.of_content ⟨(Builder.length_of_keyOf hkey).2, rfl, rfl,
          fun _ => rfl, fun _ => rfl⟩ hcontent
      · rw [hused', hused₂]
        change w₁.arenaUsed + bytes.length = _
        rw [hused]
    · rw [hset]
      refine .inr ⟨_, rfl, rfl, ?_⟩
      rcases hwhy with hnone | ⟨bytes, hbytes, hex⟩
      · exact .inl (hplace.trans hnone)
      · refine .inr (hex.mono ?_)
        have hsize := KeyArg.length_of_bytes hbytes
        change w₁.arenaUsed + bytes.length ≤ _
        rw [hused, hsize]
        simp only [Option.map_some, Option.getD_some]
        omega

/-- What a call takes out of the arena when it succeeds. -/
def Op.cost : Op → Nat
  | .setNull key => nodeSize + key.size
  | .setBool key _ => nodeSize + key.size
  | .setInt64 key _ => nodeSize + key.size
  | .setUint64 key _ => nodeSize + key.size
  | .setFloat64 key _ => nodeSize + key.size
  | .setString key value => nodeSize + key.size + value.length
  | .beginBlock key => nodeSize + key.size
  | .beginArray key => nodeSize + key.size
  | .endBlock | .endArray => 0
  | .appendNull | .appendBool _ | .appendInt64 _ | .appendUint64 _ | .appendFloat64 _ => nodeSize
  | .appendString value => nodeSize + value.length

/-- A call does what the builder does, or it fails and leaves its mark. It fails only
when the builder does not allow it or the arena refuses. -/
def Follows (env : Env) (w : Writer) (after : Option Builder) (cost : Nat)
    (result : Option (Bool × Writer)) : Prop :=
  (∃ w' b', result = some (true, w') ∧ after = some b' ∧ Tracks env w' b' ∧
    w'.arenaUsed = w.arenaUsed + cost ∧ w'.arenaUsed < 2 ^ 63) ∨
  (∃ w', result = some (false, w') ∧ w'.errorFlag = true ∧
    (after = none ∨ Exhausted env w cost))

theorem follows_reject {env : Env} {w w' : Writer} {after : Option Builder} {cost : Nat}
    (h : after = none) : Follows env w after cost w'.reject :=
  .inr ⟨_, rfl, rfl, .inl h⟩

/-- The leaves without a string. -/
theorem follows_leaf {env : Env} {w : Writer} {b : Builder} (h : Tracks env w b)
    (key : Option KeyArg) {s : Scalar} (hpayload : ∀ n : Node, n.HoldsPayload s) :
    Follows env w ((b.place key).map fun k => b.add k (.scalar s))
      (nodeSize + (key.map KeyArg.size).getD 0) (addLeaf env w key s.kind) := by
  rcases addLeaf_cases h key s.kind with
    ⟨w', id, node, k, heq, hplace, hcarries, hkey, hkind, hused, hlt⟩ | ⟨w', heq, hflag, hwhy⟩
  · have hsize := Builder.length_of_place hplace
    refine .inl ⟨w', _, heq, by rw [hplace, Option.map_some], hcarries.leaf hkey hkind
      (hpayload node) (Builder.keyless_of_place hplace), ?_, hlt⟩
    rw [hused, hsize, Nat.add_assoc]
  · refine .inr ⟨w', heq, hflag, hwhy.imp (fun hnone => ?_) id⟩
    rw [hnone, Option.map_none]

/-- A store of the payload of a scalar: it touches neither links nor key. -/
structure StoresPayload (f : Node → Node) (s : Scalar) : Prop where
  links : ∀ n, (f n).parent = n.parent ∧ (f n).firstChild = n.firstChild ∧
    (f n).lastChild = n.lastChild ∧ (f n).childCount = n.childCount ∧
    (f n).nextSibling = n.nextSibling
  key : ∀ n, (f n).keyData = n.keyData ∧ (f n).keyLength = n.keyLength ∧
    (f n).keyHash64 = n.keyHash64 ∧ (f n).kind = n.kind ∧
    (f n).cachedKeyPoolOffset = n.cachedKeyPoolOffset
  payload : ∀ n, (f n).HoldsPayload s

theorem StoresPayload.holdsKey {f : Node → Node} {s : Scalar} (hf : StoresPayload f s)
    {n : Node} {key : Bytes} (h : n.HoldsKey hash64 key) : (f n).HoldsKey hash64 key := by
  obtain ⟨hdata, hlength, hhash, -, hcached⟩ := hf.key n
  exact ⟨h.length_le, hdata.trans h.data, hlength.trans h.length,
    fun hne => hhash.trans (h.hash hne), fun hempty => hcached.trans (h.uncached hempty)⟩

/-- A leaf that is hung first and filled afterwards. -/
theorem Carries.fill {env : Env} {w : Writer} {b : Builder} {id : NodeId} {node : Node}
    {key : Bytes} {s : Scalar} {f : Node → Node} (h : Carries env w b (some id) id node)
    (hf : StoresPayload f s) (hkey : node.HoldsKey env.hash64 key) (hkind : node.kind = s.kind)
    (hkeyless : b.keyed = false → key = []) :
    ∃ w', w.store (some id) f = some w' ∧ w'.arenaUsed = w.arenaUsed ∧
      Tracks env w' (b.add key (.scalar s)) := by
  obtain ⟨hstore, hcarries⟩ := h.store f (hf.links node)
  exact ⟨_, hstore, rfl, hcarries.leaf (hf.holdsKey hkey)
    ((hf.key node).2.2.2.1.trans hkind) (hf.payload node) hkeyless⟩

/-- The leaves whose payload is a word. -/
theorem follows_leafWith {env : Env} {w : Writer} {b : Builder} (h : Tracks env w b)
    (key : Option KeyArg) {s : Scalar} {f : Node → Node} (hf : StoresPayload f s) :
    Follows env w ((b.place key).map fun k => b.add k (.scalar s))
      (nodeSize + (key.map KeyArg.size).getD 0) (addLeafWith env w key s.kind f) := by
  unfold addLeafWith
  rcases addLeaf_cases h key s.kind with
    ⟨w₁, id, node, k, heq, hplace, hcarries, hkey, hkind, hused, hlt⟩ | ⟨w₁, heq, hflag, hwhy⟩
  · obtain ⟨w', hstore, hused', htracks⟩ :=
      hcarries.fill hf hkey hkind (Builder.keyless_of_place hplace)
    refine .inl ⟨w', _, ?_, by rw [hplace, Option.map_some], htracks, ?_, hused' ▸ hlt⟩
    · simp [heq, hcarries.lastAdded, hstore]
    · rw [hused', hused, Builder.length_of_place hplace, Nat.add_assoc]
  · refine .inr ⟨w₁, by simp [heq], hflag, hwhy.imp (fun hnone => ?_) fun hex => hex⟩
    rw [hnone, Option.map_none]

/-- The leaves whose payload is a string. -/
theorem follows_string {env : Env} {w : Writer} {b : Builder} (h : Tracks env w b)
    (key : Option KeyArg) (value : Bytes) :
    Follows env w
      (if value.length ≤ lengthMax then
        (b.place key).map fun k => b.add k (.scalar (.string value)) else none)
      (nodeSize + (key.map KeyArg.size).getD 0 + value.length) (addString env w key value) := by
  unfold addString
  by_cases hlen : value.length > lengthMax
  · rw [if_pos hlen]
    exact follows_reject (if_neg (Nat.not_le.mpr hlen))
  rw [if_neg hlen, if_pos (Nat.not_lt.mp hlen)]
  rcases addLeaf_cases h key .string with
    ⟨w₁, id, node, k, heq, hplace, hcarries, hkey, hkind, hused, hlt⟩ | ⟨w₁, heq, hflag, hwhy⟩
  swap
  · refine .inr ⟨w₁, by simp [heq], hflag, hwhy.imp (fun hnone => ?_) fun hex => ?_⟩
    · rw [hnone, Option.map_none]
    · exact hex.mono (by omega)
  have hsize := Builder.length_of_place hplace
  rcases arenaClone_cases env w₁ value hlt with ⟨calls, hclone, hlt'⟩ | ⟨hclone, hex⟩
  · have hf : StoresPayload (fun n : Node => { n with
        stringData := cloned value
        stringLength := UInt32.ofNat value.length }) (.string value) :=
      ⟨fun _ => ⟨rfl, rfl, rfl, rfl, rfl⟩, fun _ => ⟨rfl, rfl, rfl, rfl, rfl⟩,
        fun _ => ⟨Nat.not_lt.mp hlen, rfl, rfl⟩⟩
    obtain ⟨w', hstore, hused', htracks⟩ :=
      (hcarries.of_arena calls (w₁.arenaUsed + value.length)).fill hf hkey hkind
        (Builder.keyless_of_place hplace)
    refine .inl ⟨w', _, ?_, by rw [hplace, Option.map_some], htracks, ?_, ?_⟩
    · simp [heq, hcarries.lastAdded, hclone, hstore]
    · rw [hused']
      change w₁.arenaUsed + value.length = _
      omega
    · rw [hused']
      exact hlt'
  · refine .inr ⟨_, by simp [heq, hcarries.lastAdded, hclone, Writer.reject]; rfl, rfl, .inr ?_⟩
    exact hex.mono (by omega)

theorem Builder.openScope_eq (b : Builder) (kind : ScopeKind) (key : KeyArg) :
    b.openScope kind key =
      if b.keyed then
        (Builder.keyOf key).map fun k =>
          { b with scopes := { kind, key := k, members := [] } :: b.scopes }
      else if key = .null 0 then
        some { b with scopes := { kind, key := [], members := [] } :: b.scopes }
      else none := rfl

theorem Builder.keyOf_of_bytes_eq_none {key : KeyArg} (h : key.bytes = none) :
    Builder.keyOf key = none := by
  cases key with
  | null length =>
    simp only [KeyArg.bytes] at h
    split at h
    · rename_i hne
      exact if_neg hne
    · cases h
  | data bytes => cases h

/-- A container without a key of its own. -/
theorem follows_keyless {env : Env} {w w₁ : Writer} {b : Builder} {kind : ScopeKind} {id : NodeId}
    {cost : Nat} (hcarries : Carries env w₁ b none id { Node.zero with kind := kind.kind })
    (hused : w₁.arenaUsed = w.arenaUsed + cost) (hlt : w₁.arenaUsed < 2 ^ 63) :
    Follows env w (some { b with scopes := { kind, key := [], members := [] } :: b.scopes }) cost
      (do
        let w ← appendToScope w₁ id
        return (true, { w with currentScope := some id })) := by
  obtain ⟨w', node', happend, hcontent, hused', hcarries'⟩ := appendToScope_carries hcarries
  refine .inl ⟨{ w' with currentScope := some id }, _, by simp [happend], rfl, ?_, ?_, ?_⟩
  · exact hcarries'.scope ((Node.zero_holdsKey kind.kind).of_content hcontent)
      (Node.kind_of_content hcontent) fun _ => rfl
  · exact hused'.trans hused
  · exact hused' ▸ hlt

/-- `begin_block` and `begin_array`. -/
theorem follows_begin {env : Env} {w : Writer} {b : Builder} (h : Tracks env w b)
    (kind : ScopeKind) (key : KeyArg) :
    Follows env w (b.openScope kind key) (nodeSize + key.size)
      (beginContainer env w key kind.kind) := by
  obtain ⟨hkeyed, hindexed⟩ := h.expect
  unfold beginContainer
  rw [if_neg (by simp [h.valid]), hkeyed, hindexed, Builder.openScope_eq]
  simp only [bind, Option.bind]
  cases hb : b.keyed with
  | false =>
    simp only [Bool.not_false, true_and, Bool.false_eq_true, false_and, if_false]
    by_cases hkey : key = .null 0
    swap
    · rw [if_pos hkey]
      exact follows_reject (if_neg hkey)
    subst hkey
    rw [if_pos rfl, if_neg fun hne => hne rfl]
    rcases allocNode_cases h with ⟨w₁, heq, hused, hlt, hcarries⟩ | ⟨w₁, heq, hflag, hex⟩
    · obtain ⟨hstore, hcarries⟩ :=
        hcarries.store (fun n => { n with kind := kind.kind }) ⟨rfl, rfl, rfl, rfl, rfl⟩
      simp only [heq, hstore]
      exact follows_keyless hcarries hused hlt
    · rw [heq]
      exact .inr ⟨w₁, rfl, hflag, .inr (hex.mono (by omega))⟩
  | true =>
    simp only [Bool.not_true, Bool.false_eq_true, false_and, if_false, true_and, if_true]
    by_cases hbytes : key.bytes = none
    · rw [if_pos hbytes]
      exact follows_reject (by rw [Builder.keyOf_of_bytes_eq_none hbytes]; rfl)
    rw [if_neg hbytes]
    rcases allocNode_cases h with ⟨w₁, heq, hused, hlt, hcarries⟩ | ⟨w₁, heq, hflag, hex⟩
    swap
    · rw [heq]
      exact .inr ⟨w₁, rfl, hflag, .inr (hex.mono (by omega))⟩
    obtain ⟨hstore, hcarries⟩ :=
      hcarries.store (fun n => { n with kind := kind.kind }) ⟨rfl, rfl, rfl, rfl, rfl⟩
    simp only [heq, hstore]
    cases key with
    | null length =>
      -- a null pointer is the empty key, and `set_key` is not called
      have hlength : length = 0 := by
        by_contra hne
        exact hbytes (by simp [KeyArg.bytes, hne])
      subst hlength
      exact follows_keyless hcarries hused hlt
    | data bytes =>
      simp only
      rcases setKey_cases hcarries hlt (.data bytes) with
        ⟨w₂, k, hset, hkey, hk, hused₂, hlt₂, hcarries₂⟩ | ⟨w₂, hset, hwhy⟩
      · cases hk
        obtain ⟨w', node', happend, hcontent, hused', hcarries'⟩ :=
          appendToScope_carries hcarries₂
        refine .inl ⟨{ w' with currentScope := some _ }, _, by simp [hset, happend],
          by rw [hkey, Option.map_some], hcarries'.scope ?_ (Node.kind_of_content hcontent) ?_,
          ?_, hused' ▸ hlt₂⟩
        · exact Node.HoldsKey.of_content ⟨(Builder.length_of_keyOf hkey).2, rfl, rfl,
            fun _ => rfl, fun _ => rfl⟩ hcontent
        · exact fun hfalse => absurd (hb.symm.trans hfalse) (by simp)
        · rw [hused', hused₂]
          change w₁.arenaUsed + bytes.length = _
          rw [hused, Nat.add_assoc]
          rfl
      · rw [hset]
        refine .inr ⟨_, rfl, rfl, ?_⟩
        rcases hwhy with hnone | ⟨k, hk, hex⟩
        · exact .inl (by rw [hnone]; rfl)
        · cases hk
          refine .inr (hex.mono ?_)
          change w₁.arenaUsed + bytes.length ≤ w.arenaUsed + (nodeSize + bytes.length)
          omega

/-- Without keys, the elements are all there is to the members. -/
theorem map_elements {members : List (Bytes × Value)} (h : ∀ m ∈ members, m.1 = []) :
    (members.map Prod.snd).map (fun e => (([] : Bytes), e)) = members := by
  rw [List.map_map]
  calc members.map ((fun e => (([] : Bytes), e)) ∘ Prod.snd)
      = members.map id := List.map_congr_left fun m hm => Prod.ext (h m hm).symm rfl
    _ = members := List.map_id members

/-- `end_block` and `end_array`: what was the current scope is now a member. -/
theorem follows_end {env : Env} {w : Writer} {b : Builder} (h : Tracks env w b)
    (hw : w.arenaUsed < 2 ^ 63) (kind : ScopeKind) :
    Follows env w (b.close kind) 0 (endContainer w kind.kind) := by
  obtain ⟨opened, done, hcurrent, hspine, hnodup, hmatches⟩ := h.shape
  obtain ⟨members, scopes⟩ := b
  obtain ⟨hroot, hscopes, hkeyless⟩ := hmatches
  unfold endContainer
  rw [if_neg (by simp [h.valid])]
  cases hscopes with
  | nil =>
    rw [hcurrent]
    exact follows_reject rfl
  | @cons o scope outer scopes head tail =>
    obtain ⟨⟨node, hnode, hparent, hnext, hends⟩, hsiblings, houter⟩ := hspine
    obtain ⟨node₂, hnode₂, hkey, hkind⟩ := head.node
    obtain rfl : node = node₂ := Option.some.inj (hnode.symm.trans hnode₂)
    obtain ⟨hmembers, haround, hrest⟩ := hkeyless
    have hderef : w.deref (some o.id) = some node := hnode
    simp only [hcurrent, scopeOf, List.head?_cons, Option.map_some, hderef, bind, Option.bind]
    by_cases hsame : scope.kind = kind
    swap
    · have hne : node.kind ≠ kind.kind := by
        rw [hkind]
        revert hsame
        cases scope.kind <;> cases kind <;> simp [ScopeKind.kind]
      rw [if_pos hne]
      exact follows_reject (if_neg hsame)
    rw [if_neg (by rw [hkind, hsame]; simp)]
    have hclose : Builder.close { members, scopes := scope :: scopes } kind
        = some (Builder.add { members, scopes } scope.key scope.value) := if_pos hsame
    refine .inl ⟨_, _, rfl, hclose, ?_, rfl, hw⟩
    refine tracks_of_filled (.mk o.id o.done) h.valid hparent
      (houter.congr ⟨rfl, rfl, rfl⟩ fun _ _ => rfl) hnodup
      ⟨node, hnode, hparent, hnext, hends, hsiblings⟩ ⟨hroot, tail, hrest⟩ ?_ ?_
    · -- the members of the scope have become a value
      rw [Scope.value]
      cases hk : scope.kind with
      | block => exact .block hnode hkey (by rw [hkind, hk]; rfl) head.members
      | array =>
        refine .array hnode hkey (by rw [hkind, hk]; rfl) ?_
        rw [map_elements (hmembers hk)]
        exact head.members
    · intro hkeyed
      cases scopes with
      | nil => cases hkeyed
      | cons around scopes =>
        refine haround around rfl ?_
        cases hk : around.kind with
        | block => simp [Builder.keyed, hk] at hkeyed
        | array => rfl

theorem Builder.set_eq (b : Builder) (key : KeyArg) (s : Scalar) (hs : Builder.admits s = true) :
    b.set key s = (b.place (some key)).map fun k => b.add k (.scalar s) := by
  simp only [Builder.set, Builder.place, hs, true_and]
  by_cases hb : b.keyed = true
  · rw [if_pos hb, if_pos hb]
  · rw [if_neg hb, if_neg hb, Option.map_none]

theorem Builder.append_eq (b : Builder) (s : Scalar) (hs : Builder.admits s = true) :
    b.append s = (b.place none).map fun k => b.add k (.scalar s) := by
  simp only [Builder.append, Builder.place, hs, true_and]
  cases b.keyed <;> rfl

theorem Builder.set_string (b : Builder) (key : KeyArg) (value : Bytes) :
    b.set key (.string value) = if value.length ≤ lengthMax then
      (b.place (some key)).map fun k => b.add k (.scalar (.string value)) else none := by
  by_cases hlen : value.length ≤ lengthMax
  · rw [if_pos hlen]
    exact b.set_eq key _ (decide_eq_true hlen)
  · rw [if_neg hlen, Builder.set, if_neg fun hc => hlen (of_decide_eq_true hc.1)]

theorem Builder.append_string (b : Builder) (value : Bytes) :
    b.append (.string value) = if value.length ≤ lengthMax then
      (b.place none).map fun k => b.add k (.scalar (.string value)) else none := by
  by_cases hlen : value.length ≤ lengthMax
  · rw [if_pos hlen]
    exact b.append_eq _ (decide_eq_true hlen)
  · rw [if_neg hlen, Builder.append, if_neg fun hc => hlen (of_decide_eq_true hc.1)]

/-- Every call follows the builder. -/
theorem step_follows {env : Env} {w : Writer} {b : Builder} (h : Tracks env w b)
    (hw : w.arenaUsed < 2 ^ 63) (op : Op) :
    Follows env w (b.step op) op.cost (w.step env op) := by
  have hlinks : ∀ n : Node, n.parent = n.parent ∧ n.firstChild = n.firstChild ∧
      n.lastChild = n.lastChild ∧ n.childCount = n.childCount ∧
      n.nextSibling = n.nextSibling := fun _ => ⟨rfl, rfl, rfl, rfl, rfl⟩
  have hkey : ∀ n : Node, n.keyData = n.keyData ∧ n.keyLength = n.keyLength ∧
      n.keyHash64 = n.keyHash64 ∧ n.kind = n.kind ∧
      n.cachedKeyPoolOffset = n.cachedKeyPoolOffset := fun _ => ⟨rfl, rfl, rfl, rfl, rfl⟩
  cases op with
  | setNull key =>
    rw [Builder.step, b.set_eq key _ rfl]
    exact follows_leaf h (some key) fun _ => trivial
  | setBool key value =>
    rw [Builder.step, b.set_eq key _ rfl]
    exact follows_leaf h (some key) fun _ => trivial
  | setInt64 key value =>
    rw [Builder.step, b.set_eq key _ rfl]
    exact follows_leafWith h (some key) ⟨hlinks, hkey, fun _ => rfl⟩
  | setUint64 key value =>
    rw [Builder.step, b.set_eq key _ rfl]
    exact follows_leafWith h (some key) ⟨hlinks, hkey, fun _ => rfl⟩
  | setFloat64 key bits =>
    rw [Builder.step, b.set_eq key _ rfl]
    exact follows_leafWith h (some key) ⟨hlinks, hkey, fun _ => rfl⟩
  | setString key value =>
    rw [Builder.step, b.set_string key]
    exact follows_string h (some key) value
  | beginBlock key => exact follows_begin h .block key
  | endBlock => exact follows_end h hw .block
  | beginArray key => exact follows_begin h .array key
  | endArray => exact follows_end h hw .array
  | appendNull =>
    rw [Builder.step, b.append_eq _ rfl]
    exact follows_leaf h none fun _ => trivial
  | appendBool value =>
    rw [Builder.step, b.append_eq _ rfl]
    exact follows_leaf h none fun _ => trivial
  | appendInt64 value =>
    rw [Builder.step, b.append_eq _ rfl]
    exact follows_leafWith h none ⟨hlinks, hkey, fun _ => rfl⟩
  | appendUint64 value =>
    rw [Builder.step, b.append_eq _ rfl]
    exact follows_leafWith h none ⟨hlinks, hkey, fun _ => rfl⟩
  | appendFloat64 bits =>
    rw [Builder.step, b.append_eq _ rfl]
    exact follows_leafWith h none ⟨hlinks, hkey, fun _ => rfl⟩
  | appendString value =>
    rw [Builder.step, b.append_string]
    exact follows_string h none value

/-! ## Runs -/

theorem create_tracks (env : Env) (options : Option WriterOptions) :
    Tracks env (Writer.create options) Builder.empty :=
  ⟨rfl, [], [], rfl, ⟨⟨rfl, rfl, rfl⟩, trivial⟩, List.nodup_nil, .nil, .nil, trivial⟩

/-- A run of calls that all return `true` is a run of the builder. -/
theorem runs_tracks {env : Env} {w w' : Writer} {b : Builder} {ops : List Op}
    (h : Tracks env w b) (hw : w.arenaUsed < 2 ^ 63) (hrun : w.runs env ops = some w') :
    ∃ b', b.run ops = some b' ∧ Tracks env w' b' ∧
      w'.arenaUsed = w.arenaUsed + (ops.map Op.cost).sum ∧ w'.arenaUsed < 2 ^ 63 := by
  induction ops generalizing w b with
  | nil =>
    cases hrun
    exact ⟨b, rfl, h, rfl, hw⟩
  | cons op ops ih =>
    rw [Writer.runs] at hrun
    rcases step_follows h hw op with
      ⟨w₁, b₁, hstep, hbstep, htracks, hused, hlt⟩ | ⟨w₁, hstep, -, -⟩
    · rw [hstep] at hrun
      obtain ⟨b', hb', htracks', hused', hlt'⟩ := ih htracks hlt hrun
      refine ⟨b', by simp only [Builder.run, hbstep, Option.bind_some, hb'], htracks', ?_, hlt'⟩
      rw [hused', hused, List.map_cons, List.sum_cons, Nat.add_assoc]
    · rw [hstep] at hrun
      cases hrun

/-- A writer whose allocations succeed accepts what the builder accepts. -/
theorem runs_of_builder {env : Env} (hallocates : ∀ i, env.arenaAllocates i = true) {w : Writer}
    {b b' : Builder} {ops : List Op} (h : Tracks env w b) (hb : b.run ops = some b')
    (hroom : w.arenaUsed + (ops.map Op.cost).sum < 2 ^ 63) :
    ∃ w', w.runs env ops = some w' ∧ Tracks env w' b' := by
  induction ops generalizing w b with
  | nil =>
    cases hb
    exact ⟨w, rfl, h⟩
  | cons op ops ih =>
    obtain ⟨b₁, hb₁, hb'⟩ := Option.bind_eq_some_iff.mp hb
    rw [List.map_cons, List.sum_cons, ← Nat.add_assoc] at hroom
    rcases step_follows h (by omega) op with
      ⟨w₁, b₂, hstep, hb₂, htracks, hused, -⟩ | ⟨-, -, -, hnone | ⟨i, hi⟩ | hfull⟩
    · cases hb₁.symm.trans hb₂
      obtain ⟨w', hrun, htracks'⟩ := ih htracks hb' (hused ▸ hroom)
      exact ⟨w', by rw [Writer.runs, hstep]; exact hrun, htracks'⟩
    · rw [hb₁] at hnone
      cases hnone
    · rw [hallocates i] at hi
      cases hi
    · omega

/-- The nodes of a writer without open scopes are a document. -/
structure Stored (env : Env) (w : Writer) (trees : List NodeTree) (document : Document) :
    Prop where
  valid : w.errorFlag = false
  closed : w.currentScope = none
  ends : Ends w.rootFirst w.rootLast w.rootCount trees none
  siblings : Siblings w.nodes none none trees
  nodup : (idsOf trees).Nodup
  denotes : DenotesMembers env.hash64 w.nodes trees document

/-- When its scopes are closed, what a writer holds is what the builder has built. -/
theorem Tracks.stored {env : Env} {w : Writer} {b : Builder} (h : Tracks env w b)
    (hclosed : w.currentScope = none) :
    b.scopes = [] ∧ ∃ trees, Stored env w trees b.members := by
  obtain ⟨opened, done, hcurrent, hspine, hnodup, hmatches⟩ := h.shape
  cases opened with
  | cons o outer => rw [hcurrent] at hclosed; cases hclosed
  | nil =>
    obtain ⟨hends, hsiblings⟩ := hspine
    obtain ⟨members, scopes⟩ := b
    obtain ⟨hroot, hscopes, -⟩ := hmatches
    cases hscopes
    exact ⟨rfl, done, h.valid, hclosed, hends, hsiblings, hnodup, hroot⟩

end Hrbl
