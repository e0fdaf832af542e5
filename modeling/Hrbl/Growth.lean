import Hrbl.Refinement

/-!
# The growth of a writer

What an accepted construction call leaves alone: the contents of the nodes that were there,
the first of the children of each and the sibling behind each. A writer that has grown so
and now stands for more members of the same scope has exactly the nodes that it had, in
their places, and new ones at the end of that scope.
-/

namespace Hrbl

open Lib NodeTree

/-! ## Nodes that stay -/

/-- A node later on: it says what it said, and the pointers that a chain is followed by
are where they were, unless they were null. -/
structure Node.Kept (n n' : Node) : Prop where
  content : n'.content = n.content
  firstChild : n.firstChild = none ∨ n'.firstChild = n.firstChild
  nextSibling : n.nextSibling = none ∨ n'.nextSibling = n.nextSibling

theorem Node.Kept.refl (n : Node) : n.Kept n := ⟨rfl, .inr rfl, .inr rfl⟩

theorem kept_pointer_trans {p p' p'' : Option NodeId} (h : p = none ∨ p' = p)
    (h' : p' = none ∨ p'' = p') : p = none ∨ p'' = p := by
  rcases h with hnone | rfl
  · exact .inl hnone
  · exact h'

theorem kept_pointer_some {p p' : Option NodeId} (h : p = none ∨ p' = p) {id : NodeId}
    (hp : p = some id) : p' = some id := by
  rcases h with hnone | rfl
  · cases hnone.symm.trans hp
  · exact hp

theorem Node.Kept.trans {n n' n'' : Node} (h : n.Kept n') (h' : n'.Kept n'') : n.Kept n'' where
  content := h'.content.trans h.content
  firstChild := kept_pointer_trans h.firstChild h'.firstChild
  nextSibling := kept_pointer_trans h.nextSibling h'.nextSibling

/-- A writer later on: all its nodes are kept, and so is the first of its root. -/
structure Grows (w w' : Writer) : Prop where
  rootFirst : w.rootFirst = none ∨ w'.rootFirst = w.rootFirst
  nodes : ∀ (id : NodeId) (n : Node), w.nodes[id]? = some n →
    ∃ n', w'.nodes[id]? = some n' ∧ n.Kept n'

theorem Grows.refl (w : Writer) : Grows w w :=
  ⟨.inr rfl, fun _ n hn => ⟨n, hn, .refl n⟩⟩

theorem Grows.trans {w w' w'' : Writer} (h : Grows w w') (h' : Grows w' w'') : Grows w w'' := by
  refine ⟨kept_pointer_trans h.rootFirst h'.rootFirst, ?_⟩
  intro id n hn
  obtain ⟨n', hn', hkept⟩ := h.nodes id n hn
  obtain ⟨n'', hn'', hkept'⟩ := h'.nodes id n' hn'
  exact ⟨n'', hn'', hkept.trans hkept'⟩

theorem Extends.grows {w w' : Writer} (h : Extends w w') : Grows w w' := by
  refine ⟨.inr h.rootFirst, ?_⟩
  intro id n hn
  obtain ⟨hlt, -⟩ := List.getElem?_eq_some_iff.mp hn
  refine ⟨n, ?_, .refl n⟩
  rw [List.prefix_iff_getElem?.mp h.nodes id hlt, ← List.getElem?_eq_getElem hlt, hn]

theorem Grows.sameContent {w w' : Writer} (h : Grows w w') {id : NodeId}
    (hid : id < w.nodes.length) : SameContent w.nodes w'.nodes id := by
  obtain ⟨n', hn', hkept⟩ := h.nodes id _ (List.getElem?_eq_getElem hid)
  rw [SameContent, hn', List.getElem?_eq_getElem hid, Option.map_some, Option.map_some,
    hkept.content]

theorem Writer.eq_of_store {w w' : Writer} {p : Option NodeId} {f : Node → Node}
    (h : w.store p f = some w') :
    ∃ id, p = some id ∧ id < w.nodes.length ∧ w' = { w with nodes := w.nodes.modify id f } := by
  unfold Writer.store at h
  split at h
  · cases h
  rename_i id
  split at h
  · rename_i hlt
    cases h
    exact ⟨id, rfl, hlt, rfl⟩
  · cases h

/-- A store keeps the nodes when it keeps the one it goes to, if that was there before. -/
theorem Grows.store {w w₁ w₂ : Writer} {p : Option NodeId} {f : Node → Node} (h : Grows w w₁)
    (hstore : w₁.store p f = some w₂)
    (hf : ∀ (id : NodeId) (n n₁ : Node), p = some id → w.nodes[id]? = some n →
      w₁.nodes[id]? = some n₁ → n.Kept n₁ → n.Kept (f n₁)) : Grows w w₂ := by
  obtain ⟨id, rfl, -, rfl⟩ := Writer.eq_of_store hstore
  refine ⟨h.rootFirst, ?_⟩
  intro i n hn
  obtain ⟨n₁, hn₁, hkept⟩ := h.nodes i n hn
  by_cases hi : id = i
  · subst hi
    exact ⟨f n₁, getElem?_modify_self f hn₁, hf _ n n₁ rfl hn hn₁ hkept⟩
  · exact ⟨n₁, (List.getElem?_modify_ne _ _ hi).trans hn₁, hkept⟩

/-- The payload goes to a node that was not there before. -/
theorem Grows.store_new {w w₁ w₂ : Writer} {id : NodeId} {f : Node → Node} (h : Grows w w₁)
    (hid : w.nodes.length ≤ id) (hstore : w₁.store (some id) f = some w₂) : Grows w w₂ := by
  refine h.store hstore ?_
  intro i n n₁ hi hn
  cases hi
  exact absurd (List.getElem?_eq_some_iff.mp hn).1 (Nat.not_lt.mpr hid)

/-! ## Calls -/

/-- The last child of the current scope has no sibling behind it yet. -/
structure Writer.TailEnds (w : Writer) : Prop where
  root : w.currentScope = none → ∀ (last : NodeId) (n : Node), w.rootLast = some last →
    w.nodes[last]? = some n → n.nextSibling = none
  scope : ∀ scope : NodeId, w.currentScope = some scope → ∃ node, w.nodes[scope]? = some node ∧
    ∀ (last : NodeId) (n : Node), node.lastChild = some last → w.nodes[last]? = some n →
      n.nextSibling = none

theorem Siblings.nextSibling_last {nodes : List Node} {parent : Option NodeId}
    {ts : List NodeTree} {last : NodeId} {n : Node} (h : Siblings nodes parent none ts)
    (hlast : lastId ts none = some last) (hn : nodes[last]? = some n) : n.nextSibling = none := by
  induction ts with
  | nil => cases hlast
  | cons t ts ih =>
    obtain ⟨ht, hts⟩ := h
    cases ts with
    | nil =>
      obtain ⟨id, children⟩ := t
      obtain ⟨node, hnode, -, hnext, -⟩ := ht
      cases hlast
      cases hnode.symm.trans hn
      exact hnext
    | cons u us => exact ih hts (by rwa [lastId, List.getLast?_cons_cons] at hlast)

theorem Represents.tailEnds {hash64 : Bytes → UInt64} {w : Writer} {b : Builder}
    {opened : List OpenNode} {done : List NodeTree} (h : Represents hash64 w b opened done) :
    w.TailEnds := by
  have hspine := h.spine
  constructor
  · intro hroot last n hlast hn
    rw [h.current] at hroot
    cases opened with
    | cons o outer => cases hroot
    | nil =>
      obtain ⟨hends, hsiblings⟩ := hspine
      exact hsiblings.nextSibling_last (hends.last_eq.symm.trans hlast) hn
  · intro scope hscope
    rw [h.current] at hscope
    cases opened with
    | nil => cases hscope
    | cons o outer =>
      cases hscope
      obtain ⟨⟨node, hnode, -, -, hends⟩, hsiblings, -⟩ := hspine
      refine ⟨node, hnode, ?_⟩
      intro last n hlast hn
      exact hsiblings.nextSibling_last (hends.last_eq.symm.trans hlast) hn

/-- The stores of `append_to_scope`. -/
theorem appendToScope_cases {w w' : Writer} {id : NodeId} (h : appendToScope w id = some w') :
    (w.currentScope = none ∧ ∃ w₁ w₂,
      w.store (some id) (fun n => { n with parent := none }) = some w₁ ∧
      (w₁.rootFirst = none ∧ w₂ = { w₁ with rootFirst := some id } ∨
        w₁.store w₁.rootLast (fun n => { n with nextSibling := some id }) = some w₂) ∧
      w' = { w₂ with rootLast := some id, rootCount := w₂.rootCount + 1 }) ∨
    (∃ scope node w₁ w₂, w.currentScope = some scope ∧
      w.store (some id) (fun n => { n with parent := some scope }) = some w₁ ∧
      w₁.nodes[scope]? = some node ∧
      (node.firstChild = none ∧
          w₁.store (some scope) (fun n => { n with firstChild := some id }) = some w₂ ∨
        w₁.store node.lastChild (fun n => { n with nextSibling := some id }) = some w₂) ∧
      w₂.store (some scope) (fun n =>
        { n with lastChild := some id, childCount := n.childCount + 1 }) = some w') := by
  unfold appendToScope at h
  -- the same three stores at the root and in a scope, in fields of other names
  cases hscope : w.currentScope with
  | none =>
    simp only [hscope, bind, Option.bind, pure] at h
    split at h
    · cases h
    rename_i w₁ hw₁
    dsimp only at h
    refine .inl ⟨rfl, w₁, ?_⟩
    split at h
    · rename_i hfirst
      cases h
      exact ⟨_, hw₁, .inl ⟨hfirst, rfl⟩, rfl⟩
    · split at h
      · cases h
      rename_i w₂ hw₂
      cases h
      exact ⟨w₂, hw₁, .inr hw₂, rfl⟩
  | some scope =>
    simp only [hscope, bind, Option.bind, Writer.deref] at h
    split at h
    · cases h
    rename_i w₁ hw₁
    dsimp only at h
    split at h
    · cases h
    rename_i node hnode
    dsimp only at h
    refine .inr ⟨scope, node, w₁, ?_⟩
    split at h
    · rename_i hfirst
      split at h
      · cases h
      rename_i w₂ hw₂
      exact ⟨w₂, rfl, hw₁, hnode, .inl ⟨hfirst, hw₂⟩, h⟩
    · split at h
      · cases h
      rename_i w₂ hw₂
      exact ⟨w₂, rfl, hw₁, hnode, .inr hw₂, h⟩

theorem Writer.store_currentScope {w w' : Writer} {p : Option NodeId} {f : Node → Node}
    (h : w.store p f = some w') : w'.currentScope = w.currentScope := by
  obtain ⟨id, -, -, rfl⟩ := Writer.eq_of_store h
  rfl

/-- The node just hung is the last one of the scope, which is still the current one. -/
theorem appendToScope_lastAdded {w w' : Writer} {id : NodeId}
    (h : appendToScope w id = some w') : w'.lastAdded = some (some id) := by
  rcases appendToScope_cases h with
    ⟨hroot, w₁, w₂, hw₁, hw₂, rfl⟩ | ⟨scope, node, w₁, w₂, hscope, hw₁, hnode, hw₂, hw'⟩
  · have hscope₁ : w₁.currentScope = none := (Writer.store_currentScope hw₁).trans hroot
    have hscope₂ : w₂.currentScope = none := by
      rcases hw₂ with ⟨-, rfl⟩ | hw₂
      · exact hscope₁
      · exact (Writer.store_currentScope hw₂).trans hscope₁
    simp only [Writer.lastAdded, hscope₂]
  · have hscope₁ : w₁.currentScope = some scope := (Writer.store_currentScope hw₁).trans hscope
    have hscope₂ : w₂.currentScope = some scope := by
      rcases hw₂ with ⟨-, hw₂⟩ | hw₂
      · exact (Writer.store_currentScope hw₂).trans hscope₁
      · exact (Writer.store_currentScope hw₂).trans hscope₁
    rw [Writer.lastAdded, Writer.store_currentScope hw', hscope₂]
    obtain ⟨i, hi, hlt, rfl⟩ := Writer.eq_of_store hw'
    cases hi
    simp only [Writer.deref, bind, Option.bind, pure,
      getElem?_modify_self _ (List.getElem?_eq_getElem hlt)]

/-- Hanging a node below the current scope: the pointers it stores were null. -/
theorem appendToScope_grows {w w₁ w' : Writer} {id : NodeId} (htail : w.TailEnds)
    (h : Extends w w₁) (happend : appendToScope w₁ id = some w') : Grows w w' := by
  rcases appendToScope_cases happend with
    ⟨hroot, w₂, w₃, hw₂, hw₃, rfl⟩ | ⟨scope, node, w₂, w₃, hscope, hw₂, hnode, hw₃, hw'⟩
  · have hgrows₂ : Grows w w₂ := h.grows.store hw₂ fun _ _ _ _ _ _ hkept =>
      ⟨hkept.content, hkept.firstChild, hkept.nextSibling⟩
    rcases hw₃ with ⟨hfirst, rfl⟩ | hw₃
    · refine ⟨?_, hgrows₂.nodes⟩
      rcases hgrows₂.rootFirst with hnone | heq
      · exact .inl hnone
      · exact .inl (heq.symm.trans hfirst)
    · have hlast : w₂.rootLast = w.rootLast := by
        obtain ⟨_, -, -, rfl⟩ := Writer.eq_of_store hw₂
        exact h.rootLast
      have hgrows₃ : Grows w w₃ := hgrows₂.store hw₃ fun last n _ hp hn _ hkept =>
        ⟨hkept.content, hkept.firstChild,
          .inl (htail.root (h.currentScope.symm.trans hroot) last n (hlast.symm.trans hp) hn)⟩
      exact ⟨hgrows₃.rootFirst, hgrows₃.nodes⟩
  · obtain ⟨old, hold, hlast⟩ := htail.scope scope (h.currentScope.symm.trans hscope)
    have hgrows₂ : Grows w w₂ := h.grows.store hw₂ fun _ _ _ _ _ _ hkept =>
      ⟨hkept.content, hkept.firstChild, hkept.nextSibling⟩
    obtain ⟨node', hnode', hkept⟩ := hgrows₂.nodes scope old hold
    cases hnode.symm.trans hnode'
    have hnode_last : node.lastChild = old.lastChild := by
      obtain ⟨hlt, -⟩ := List.getElem?_eq_some_iff.mp hold
      have hold₁ : w₁.nodes[scope]? = some old := by
        rw [List.prefix_iff_getElem?.mp h.nodes scope hlt, ← List.getElem?_eq_getElem hlt, hold]
      obtain ⟨_, -, -, rfl⟩ := Writer.eq_of_store hw₂
      rw [List.getElem?_modify, hold₁] at hnode
      cases hnode
      dsimp only
      split <;> rfl
    have hgrows₃ : Grows w w₃ := by
      rcases hw₃ with ⟨hfirst, hw₃⟩ | hw₃
      · refine hgrows₂.store hw₃ ?_
        intro i n n₁ hi hn hn₁ hkept₁
        cases hi
        cases hold.symm.trans hn
        refine ⟨hkept₁.content, ?_, hkept₁.nextSibling⟩
        rcases hkept.firstChild with hnone | heq
        · exact .inl hnone
        · exact .inl (heq.symm.trans hfirst)
      · refine hgrows₂.store hw₃ ?_
        intro last n n₁ hp hn hn₁ hkept₁
        exact ⟨hkept₁.content, hkept₁.firstChild, .inl (hlast last n (hnode_last ▸ hp) hn)⟩
    exact hgrows₃.store hw' fun _ _ _ _ _ _ hkept =>
      ⟨hkept.content, hkept.firstChild, hkept.nextSibling⟩

/-- If the call returns `true`, the writer has grown. -/
def Grown (w : Writer) (result : Option (Bool × Writer)) : Prop :=
  ∀ w', result = some (true, w') → Grows w w'

section

variable {env : Env} {w : Writer} (htail : w.TailEnds)

include htail

/-- The leaf hangs at the end of the current scope, in a new node. -/
theorem addLeaf_grown {key : Option KeyArg} {kind : Kind} {w' : Writer}
    (h : addLeaf env w key kind = some (true, w')) :
    Grows w w' ∧ ∃ id, w.nodes.length ≤ id ∧ w'.lastAdded = some (some id) := by
  unfold addLeaf at h
  split at h
  · cases h
  obtain ⟨expected, -, h⟩ := Option.bind_eq_some_iff.mp h
  split at h
  · cases h
  split at h
  · cases h
  rename_i id w₁ halloc
  obtain ⟨hextends, hid⟩ := allocNode_extends halloc
  obtain ⟨w₂, hstore, h⟩ := Option.bind_eq_some_iff.mp h
  have hextends₂ := hextends.store (hid id rfl) hstore
  cases key with
  | none =>
    obtain ⟨w₃, happend, h⟩ := Option.bind_eq_some_iff.mp h
    cases h
    exact ⟨appendToScope_grows htail hextends₂ happend, id, hid id rfl,
      appendToScope_lastAdded happend⟩
  | some key =>
    obtain ⟨⟨stored, w₃⟩, hset, h⟩ := Option.bind_eq_some_iff.mp h
    cases stored with
    | false => cases h
    | true =>
      obtain ⟨w₄, happend, h⟩ := Option.bind_eq_some_iff.mp h
      cases h
      exact ⟨appendToScope_grows htail (setKey_extends hextends₂ (hid id rfl) hset) happend,
        id, hid id rfl, appendToScope_lastAdded happend⟩

theorem addLeafWith_grown (key : Option KeyArg) (kind : Kind) (payload : Node → Node) :
    Grown w (addLeafWith env w key kind payload) := by
  intro w' h
  obtain ⟨⟨added, w₁⟩, hadded, h⟩ := Option.bind_eq_some_iff.mp h
  cases added with
  | false => cases h
  | true =>
    obtain ⟨hgrows, id, hid, hlast⟩ := addLeaf_grown htail hadded
    obtain ⟨last, hlast', h⟩ := Option.bind_eq_some_iff.mp h
    cases hlast.symm.trans hlast'
    obtain ⟨w₂, hstore, h⟩ := Option.bind_eq_some_iff.mp h
    cases h
    exact hgrows.store_new hid hstore

theorem addString_grown (key : Option KeyArg) (value : Bytes) :
    Grown w (addString env w key value) := by
  intro w' h
  unfold addString at h
  split at h
  · cases h
  obtain ⟨⟨added, w₁⟩, hadded, h⟩ := Option.bind_eq_some_iff.mp h
  cases added with
  | false => cases h
  | true =>
    obtain ⟨hgrows, id, hid, hlast⟩ := addLeaf_grown htail hadded
    obtain ⟨last, hlast', h⟩ := Option.bind_eq_some_iff.mp h
    cases hlast.symm.trans hlast'
    have hclone := arenaClone_extends env w₁ value
    split at h
    · cases h
    rename_i clone w₂ heq
    rw [heq] at hclone
    obtain ⟨w₃, hstore, h⟩ := Option.bind_eq_some_iff.mp h
    cases h
    exact (hgrows.trans hclone.grows).store_new hid hstore

theorem beginContainer_grown (key : KeyArg) (kind : Kind) :
    Grown w (beginContainer env w key kind) := by
  intro w' h
  unfold beginContainer at h
  split at h
  · cases h
  obtain ⟨inArray, -, h⟩ := Option.bind_eq_some_iff.mp h
  obtain ⟨keyed, -, h⟩ := Option.bind_eq_some_iff.mp h
  split at h
  · cases h
  split at h
  · cases h
  split at h
  · cases h
  rename_i id w₁ halloc
  obtain ⟨hextends, hid⟩ := allocNode_extends halloc
  obtain ⟨w₂, hstore, h⟩ := Option.bind_eq_some_iff.mp h
  have hextends₂ := hextends.store (hid id rfl) hstore
  split at h
  · obtain ⟨⟨stored, w₃⟩, hset, h⟩ := Option.bind_eq_some_iff.mp h
    cases stored with
    | false => cases h
    | true =>
      obtain ⟨w₄, happend, h⟩ := Option.bind_eq_some_iff.mp h
      cases h
      have hgrows := appendToScope_grows htail (setKey_extends hextends₂ (hid id rfl) hset) happend
      exact ⟨hgrows.rootFirst, hgrows.nodes⟩
  · obtain ⟨w₃, happend, h⟩ := Option.bind_eq_some_iff.mp h
    cases h
    have hgrows := appendToScope_grows htail hextends₂ happend
    exact ⟨hgrows.rootFirst, hgrows.nodes⟩

omit htail in
theorem endContainer_grown (kind : Kind) : Grown w (endContainer w kind) := by
  intro w' h
  unfold endContainer at h
  split at h
  · cases h
  split at h
  · cases h
  obtain ⟨node, -, h⟩ := Option.bind_eq_some_iff.mp h
  split at h
  · cases h
  cases h
  exact ⟨.inr rfl, fun _ n hn => ⟨n, hn, .refl n⟩⟩

/-- The step: an accepted construction call keeps the nodes. -/
theorem step_grown (op : Op) : Grown w (w.step env op) := by
  cases op with
  | setNull key => exact fun w' h => (addLeaf_grown htail h).1
  | setBool key value => exact fun w' h => (addLeaf_grown htail h).1
  | setInt64 key value => exact addLeafWith_grown htail _ _ _
  | setUint64 key value => exact addLeafWith_grown htail _ _ _
  | setFloat64 key bits => exact addLeafWith_grown htail _ _ _
  | setString key value => exact addString_grown htail _ _
  | beginBlock key => exact beginContainer_grown htail _ _
  | endBlock => exact endContainer_grown _
  | beginArray key => exact beginContainer_grown htail _ _
  | endArray => exact endContainer_grown _
  | appendNull => exact fun w' h => (addLeaf_grown htail h).1
  | appendBool value => exact fun w' h => (addLeaf_grown htail h).1
  | appendInt64 value => exact addLeafWith_grown htail _ _ _
  | appendUint64 value => exact addLeafWith_grown htail _ _ _
  | appendFloat64 bits => exact addLeafWith_grown htail _ _ _
  | appendString value => exact addString_grown htail _ _

end

/-- A run of accepted construction calls keeps the nodes. -/
theorem runs_grows {env : Env} {w w' : Writer} {b : Builder} {ops : List Op}
    (h : Tracks env w b) (hw : w.arenaUsed < 2 ^ 63) (hrun : w.runs env ops = some w') :
    Grows w w' := by
  induction ops generalizing w b with
  | nil =>
    cases hrun
    exact .refl _
  | cons op ops ih =>
    obtain ⟨opened, done, hrepresents⟩ := h.agrees.represents
    have hgrown : Grown w (w.step env op) := step_grown hrepresents.tailEnds op
    rw [Writer.runs] at hrun
    rcases step_follows h hw op with ⟨w₁, b₁, hstep, -, htracks, -, hlt⟩ | ⟨w₁, hstep, -, -⟩
    · rw [hstep] at hrun
      exact (hgrown w₁ hstep).trans (ih htracks hlt hrun)
    · rw [hstep] at hrun
      cases hrun

/-! ## Where the new nodes are -/

namespace Builder

/-- Members put at the end of the current scope, one after the other. -/
def addAll (b : Builder) (more : List (Bytes × Value)) : Builder :=
  match b.scopes with
  | [] => { b with members := b.members ++ more }
  | scope :: outer =>
    { b with scopes := { scope with members := scope.members ++ more } :: outer }

@[simp] theorem addAll_nil (b : Builder) : b.addAll [] = b := by
  obtain ⟨members, scopes⟩ := b
  cases scopes <;> simp [addAll]

theorem add_addAll (b : Builder) (key : Bytes) (value : Value) (more : List (Bytes × Value)) :
    (b.add key value).addAll more = b.addAll ((key, value) :: more) := by
  obtain ⟨members, scopes⟩ := b
  cases scopes <;> simp [add, addAll]

end Builder

/-- The open nodes and the finished members of the root, with new children at the end of the
current scope. -/
def hang (opened : List OpenNode) (done new : List NodeTree) : List OpenNode × List NodeTree :=
  match opened with
  | [] => ([], done ++ new)
  | o :: outer => ({ o with done := o.done ++ new } :: outer, done)

mutual

/-- A value that was finished is the same tree of nodes as ever. -/
theorem LinkedAt.eq_of_grows {hash64 : Bytes → UInt64} {w w' : Writer} (hgrows : Grows w w')
    {parent next parent' next' : Option NodeId} :
    ∀ {t t' : NodeTree} {key key' : Bytes} {value : Value}, t.nodeId = t'.nodeId →
      LinkedAt w.nodes parent next t → LinkedAt w'.nodes parent' next' t' →
      t.Denotes hash64 w.nodes key value → t'.Denotes hash64 w'.nodes key' value → t = t'
  | .mk id children, .mk _ children', _, _, _, rfl, ht, ht', hdenotes, hdenotes' => by
    obtain ⟨n, hn, -, -, hends, hchildren⟩ := ht
    obtain ⟨n', hn', -, -, hends', hchildren'⟩ := ht'
    obtain ⟨_, hn₂, hkept⟩ := hgrows.nodes id n hn
    cases hn'.symm.trans hn₂
    have hfirst : ∀ x, firstId children none = some x → firstId children' none = some x := by
      intro x hx
      rw [← hends.first_eq] at hx
      rw [← hends'.first_eq]
      exact kept_pointer_some hkept.firstChild hx
    have hsame : ∀ {members : List (Bytes × Value)}, DenotesMembers hash64 w.nodes children members →
        DenotesMembers hash64 w'.nodes children' members → children = children' := by
      intro members hmembers hmembers'
      obtain ⟨new, heq, hnew, -⟩ := hchildren.append_of_grows hgrows [] hfirst hchildren'
        hmembers (by rwa [List.append_nil])
      cases hnew
      rw [heq, List.append_nil]
    cases hdenotes with
    | scalar =>
      cases hdenotes'
      rfl
    | block _ _ _ hmembers =>
      cases hdenotes' with
      | block _ _ _ hmembers' => rw [hsame hmembers hmembers']
    | array _ _ _ helements =>
      cases hdenotes' with
      | array _ _ _ helements' => rw [hsame helements helements']

/-- A chain that stands for more members has new nodes behind the old ones. -/
theorem Siblings.append_of_grows {hash64 : Bytes → UInt64} {w w' : Writer} (hgrows : Grows w w')
    {parent stop parent' stop' : Option NodeId} (more : List (Bytes × Value)) :
    ∀ {ts ts' : List NodeTree} {members : List (Bytes × Value)},
      (∀ x, firstId ts stop = some x → firstId ts' stop' = some x) →
      Siblings w.nodes parent stop ts → Siblings w'.nodes parent' stop' ts' →
      DenotesMembers hash64 w.nodes ts members →
      DenotesMembers hash64 w'.nodes ts' (members ++ more) →
      ∃ new, ts' = ts ++ new ∧ DenotesMembers hash64 w'.nodes new more ∧
        ∀ x, stop = some x → firstId new stop' = some x
  | [], ts', _, hfirst, _, _, .nil, hdenotes' => ⟨ts', rfl, hdenotes', hfirst⟩
  | t :: ts, _, _, hfirst, hts, hts', .cons head tail, hdenotes' => by
    cases hdenotes' with
    | @cons t' ts' _ _ _ head' tail' =>
    obtain ⟨hlinked, hts⟩ := hts
    obtain ⟨hlinked', hts'⟩ := hts'
    have hid : t'.nodeId = t.nodeId := Option.some.inj (hfirst t.nodeId rfl)
    obtain rfl := hlinked.eq_of_grows hgrows hid.symm hlinked' head head'
    have hnext : ∀ x, firstId ts stop = some x → firstId ts' stop' = some x := by
      obtain ⟨id, children⟩ := t
      obtain ⟨n, hn, -, hn_next, -⟩ := hlinked
      obtain ⟨n', hn', -, hn_next', -⟩ := hlinked'
      obtain ⟨_, hn₂, hkept⟩ := hgrows.nodes id n hn
      cases hn'.symm.trans hn₂
      intro x hx
      rw [← hn_next] at hx
      rw [← hn_next']
      exact kept_pointer_some hkept.nextSibling hx
    obtain ⟨new, rfl, hnew, hstop⟩ := hts.append_of_grows hgrows _ hnext hts' tail tail'
    exact ⟨new, rfl, hnew, hstop⟩

end

/-- On the way up from the current scope, everything is where it was. -/
theorem Spine.hang_of_grows {hash64 : Bytes → UInt64} {w w' : Writer} (hgrows : Grows w w')
    {done done' : List NodeTree} {members : List (Bytes × Value)} {opened : List OpenNode} :
    ∀ {opened' : List OpenNode} {scopes : List Scope} (more : List (Bytes × Value))
      {stop stop' : Option NodeId},
      Spine w stop opened done → Spine w' stop' opened' done' →
      DenotesMembers hash64 w.nodes done members →
      DenotesMembers hash64 w'.nodes done' ({ members, scopes : Builder }.addAll more).members →
      List.Forall₂ (ScopeMatches hash64 w.nodes) opened scopes →
      List.Forall₂ (ScopeMatches hash64 w'.nodes) opened'
        ({ members, scopes : Builder }.addAll more).scopes →
      ∃ new, (opened', done') = hang opened done new ∧ DenotesMembers hash64 w'.nodes new more ∧
        ∀ x, stop = some x → firstId new stop' = some x := by
  induction opened with
  | nil =>
    intro opened' scopes more stop stop' hspine hspine' hroot hroot' hscopes hscopes'
    cases hscopes
    cases hscopes'
    obtain ⟨hends, hsiblings⟩ := hspine
    obtain ⟨hends', hsiblings'⟩ := hspine'
    have hfirst : ∀ x, firstId done stop = some x → firstId done' stop' = some x := by
      intro x hx
      rw [← hends.first_eq] at hx
      rw [← hends'.first_eq]
      exact kept_pointer_some hgrows.rootFirst hx
    obtain ⟨new, rfl, hnew, hstop⟩ :=
      hsiblings.append_of_grows hgrows _ hfirst hsiblings' hroot hroot'
    exact ⟨new, rfl, hnew, hstop⟩
  | cons o outer ih =>
    intro opened' scopes more stop stop' hspine hspine' hroot hroot' hscopes hscopes'
    cases hscopes with
    | @cons _ scope _ scopes head tail =>
    cases hscopes' with
    | @cons o' _ outer' _ head' tail' =>
    obtain ⟨⟨n, hn, -, -, hends⟩, hsiblings, houter⟩ := hspine
    obtain ⟨⟨n', hn', -, -, hends'⟩, hsiblings', houter'⟩ := hspine'
    -- the scopes around have no new members, and the chain of each leads to the next one
    obtain ⟨none_new, hsame, hnone, hstop⟩ := ih [] houter houter' hroot
      (by rw [Builder.addAll_nil]; exact hroot') tail (by rw [Builder.addAll_nil]; exact tail')
    cases hnone
    have hid : o'.id = o.id := Option.some.inj (hstop o.id rfl)
    have hsame : outer' = outer ∧ done' = done := by
      cases outer with
      | nil =>
        rw [hang, List.append_nil] at hsame
        exact Prod.mk.inj hsame
      | cons around outer =>
        rw [hang, List.append_nil] at hsame
        exact Prod.mk.inj hsame
    obtain ⟨id, children⟩ := o
    obtain ⟨_, children'⟩ := o'
    obtain rfl := hid
    obtain ⟨rfl, rfl⟩ := hsame
    obtain ⟨_, hn₂, hkept⟩ := hgrows.nodes _ n hn
    cases hn'.symm.trans hn₂
    have hfirst : ∀ x, firstId children stop = some x → firstId children' stop' = some x := by
      intro x hx
      rw [← hends.first_eq] at hx
      rw [← hends'.first_eq]
      exact kept_pointer_some hkept.firstChild hx
    obtain ⟨new, heq, hnew, hend⟩ :=
      hsiblings.append_of_grows hgrows more hfirst hsiblings' head.members head'.members
    subst heq
    exact ⟨new, rfl, hnew, hend⟩

/-- A writer that has grown and stands for more members of its current scope has new children
there, and nothing else has changed. -/
theorem Represents.hang_of_grows {hash64 : Bytes → UInt64} {w w' : Writer} {b : Builder}
    {more : List (Bytes × Value)} {opened opened' : List OpenNode} {done done' : List NodeTree}
    (hgrows : Grows w w') (h : Represents hash64 w b opened done)
    (h' : Represents hash64 w' (b.addAll more) opened' done') :
    w'.currentScope = w.currentScope ∧ ∃ new, DenotesMembers hash64 w'.nodes new more ∧
      (opened', done') = hang opened done new := by
  obtain ⟨new, heq, hnew, -⟩ := h.spine.hang_of_grows hgrows more h'.spine h.denotes.root
    h'.denotes.root h.denotes.scopes h'.denotes.scopes
  refine ⟨?_, new, hnew, heq⟩
  rw [h'.current, h.current]
  cases opened with
  | nil => cases heq; rfl
  | cons o outer => cases heq; rfl

end Hrbl
