import Hrbl.Session

/-!
# The writer refines the builder

A builder that rejects a call is of no use any more, and so is the writer: `StrictBuilder`
is the builder with that rule, and a writer whose allocations succeed answers every sequence
of calls as it does. Rejected calls may leave a node behind, but nothing points to it, so the
linked nodes are the tree of the builder after every call.
-/

namespace Hrbl

open Lib NodeTree

/-! ## The abstract machine -/

/-- A builder, and whether it has rejected a call. -/
structure StrictBuilder where
  builder : Builder
  failed : Bool
deriving Repr

namespace StrictBuilder

def empty : StrictBuilder := { builder := .empty, failed := false }

/-- The answer to a call: after one rejection all calls are rejected. -/
def step (s : StrictBuilder) (op : Op) : Bool × StrictBuilder :=
  if s.failed then (false, s)
  else
    match s.builder.step op with
    | some builder => (true, { builder, failed := false })
    | none => (false, { s with failed := true })

/-- The answers to a sequence of calls. -/
def run (s : StrictBuilder) : List Op → List Bool × StrictBuilder
  | [] => ([], s)
  | op :: ops =>
    let (answer, s) := s.step op
    let (answers, s) := s.run ops
    (answer :: answers, s)

/-- What the accepted calls of a sequence take out of the arena. -/
def memory (s : StrictBuilder) : List Op → Nat
  | [] => 0
  | op :: ops => (if (s.step op).1 then op.cost else 0) + (s.step op).2.memory ops

/-- What a call can do to the machine. -/
theorem step_cases (s : StrictBuilder) (op : Op) :
    (s.failed = true ∧ s.step op = (false, s)) ∨
    (s.failed = false ∧ ∃ b, s.builder.step op = some b ∧
      s.step op = (true, { builder := b, failed := false })) ∨
    (s.failed = false ∧ s.builder.step op = none ∧
      s.step op = (false, { s with failed := true })) := by
  unfold step
  cases hfailed : s.failed with
  | true => exact .inl ⟨rfl, rfl⟩
  | false =>
    cases hb : s.builder.step op with
    | none => exact .inr (.inr ⟨rfl, rfl, rfl⟩)
    | some b => exact .inr (.inl ⟨rfl, b, rfl, rfl⟩)

end StrictBuilder

/-- The answers of the writer to a sequence of calls, whatever they are. -/
def Writer.attempts (env : Env) (w : Writer) : List Op → Option (List Bool × Writer)
  | [] => some ([], w)
  | op :: ops => do
    let (answer, w) ← w.step env op
    let (answers, w) ← w.attempts env ops
    return (answer :: answers, w)

/-! ## Counts -/

/-- An open scope has fewer than 2^32 children, those that are still open included. -/
def scopesNarrow (members : List (Bytes × Value)) (inner : Nat) : List Scope → Prop
  | [] => members.length + inner < 2 ^ 32 ∧ membersNarrow members
  | scope :: outer => scope.members.length + inner < 2 ^ 32 ∧ membersNarrow scope.members ∧
      scopesNarrow members 1 outer

/-- No scope of the builder has 2^32 children. -/
def Builder.Narrow (b : Builder) : Prop := scopesNarrow b.members 0 b.scopes

mutual

/-- The counts in the nodes of a tree are the lengths of the lists of children. -/
def NodeTree.Counted (nodes : List Node) : NodeTree → Prop
  | .mk id children => (∀ node, nodes[id]? = some node → node.childCount.toNat = children.length) ∧
      CountedAll nodes children

def CountedAll (nodes : List Node) : List NodeTree → Prop
  | [] => True
  | t :: ts => t.Counted nodes ∧ CountedAll nodes ts

end

/-- The counts in open nodes, in the writer and in everything below. -/
def SpineCounted (w : Writer) (stop : Option NodeId) : List OpenNode → List NodeTree → Prop
  | [], done => w.rootCount.toNat = done.length + stop.toList.length ∧ CountedAll w.nodes done
  | o :: outer, done =>
    (∀ node, w.nodes[o.id]? = some node →
      node.childCount.toNat = o.done.length + stop.toList.length) ∧
    CountedAll w.nodes o.done ∧ SpineCounted w (some o.id) outer done

theorem Ends.toNat_count {first last : Option NodeId} {count : UInt32} {ts : List NodeTree}
    {stop : Option NodeId} (h : Ends first last count ts stop)
    (hlt : ts.length + stop.toList.length < 2 ^ 32) :
    count.toNat = ts.length + stop.toList.length := by
  rw [h.count_eq, toNat_ofNat_of_lt hlt]

section

variable {hash64 : Bytes → UInt64} {nodes : List Node}

mutual

theorem LinkedAt.counted {parent next : Option NodeId} :
    ∀ {t : NodeTree} {key : Bytes} {value : Value}, LinkedAt nodes parent next t →
      t.Denotes hash64 nodes key value → value.Narrow → t.Counted nodes
  | .mk id children, _, value, ⟨node, hnode, _, _, hends, hsiblings⟩, hdenotes, hnarrow => by
    have hcount : children.length < 2 ^ 32 → ∀ node', nodes[id]? = some node' →
        node'.childCount.toNat = children.length := by
      intro hlt node' hnode'
      obtain rfl : node = node' := Option.some.inj (hnode.symm.trans hnode')
      exact hends.toNat_count hlt
    cases hdenotes with
    | scalar => exact ⟨hcount (by simp), trivial⟩
    | block _ _ _ hmembers =>
      exact ⟨hcount (by rw [hmembers.length_eq]; exact hnarrow.1),
        hsiblings.counted hmembers hnarrow.2⟩
    | array _ _ _ helements =>
      exact ⟨hcount (by rw [helements.length_eq, List.length_map]; exact hnarrow.1),
        hsiblings.counted helements (membersNarrow_elements hnarrow.2)⟩

theorem Siblings.counted {parent stop : Option NodeId} :
    ∀ {ts : List NodeTree} {members : List (Bytes × Value)}, Siblings nodes parent stop ts →
      DenotesMembers hash64 nodes ts members → membersNarrow members → CountedAll nodes ts
  | [], _, _, _, _ => trivial
  | _ :: _, _, ⟨ht, hts⟩, .cons head tail, hnarrow =>
    ⟨ht.counted head hnarrow.1, hts.counted tail hnarrow.2⟩

end

/-- In the spine of a writer that follows a narrow builder every count is right. -/
theorem Spine.counted {w : Writer} {done : List NodeTree} {members : List (Bytes × Value)}
    {opened : List OpenNode} {scopes : List Scope}
    (hroot : DenotesMembers hash64 w.nodes done members)
    (hscopes : List.Forall₂ (ScopeMatches hash64 w.nodes) opened scopes) :
    ∀ {stop : Option NodeId}, Spine w stop opened done →
      scopesNarrow members stop.toList.length scopes → SpineCounted w stop opened done := by
  induction hscopes with
  | nil =>
    rintro stop ⟨hends, hsiblings⟩ ⟨hlt, hnarrow⟩
    rw [← hroot.length_eq] at hlt
    exact ⟨hends.toNat_count hlt, hsiblings.counted hroot hnarrow⟩
  | @cons o scope outer scopes head _ ih =>
    rintro stop ⟨⟨node, hnode, _, _, hends⟩, hsiblings, houter⟩ ⟨hlt, hnarrow, hrest⟩
    rw [← head.members.length_eq] at hlt
    refine ⟨fun node' hnode' => ?_, hsiblings.counted head.members hnarrow, ih houter hrest⟩
    obtain rfl : node = node' := Option.some.inj (hnode.symm.trans hnode')
    exact hends.toNat_count hlt

end

/-! ## Rejected calls -/

/-- A writer with the same links as before, and perhaps with more nodes. -/
structure Extends (w w' : Writer) : Prop where
  currentScope : w'.currentScope = w.currentScope
  rootFirst : w'.rootFirst = w.rootFirst
  rootLast : w'.rootLast = w.rootLast
  rootCount : w'.rootCount = w.rootCount
  nodes : w.nodes <+: w'.nodes

theorem Extends.refl (w : Writer) : Extends w w := ⟨rfl, rfl, rfl, rfl, List.prefix_rfl⟩

theorem Extends.trans {w w' w'' : Writer} (h : Extends w w') (h' : Extends w' w'') :
    Extends w w'' where
  currentScope := h'.currentScope.trans h.currentScope
  rootFirst := h'.rootFirst.trans h.rootFirst
  rootLast := h'.rootLast.trans h.rootLast
  rootCount := h'.rootCount.trans h.rootCount
  nodes := h.nodes.trans h'.nodes

/-- A store to a node that was not there before. -/
theorem Extends.store {w w₁ w₂ : Writer} {id : NodeId} {f : Node → Node} (h : Extends w w₁)
    (hid : w.nodes.length ≤ id) (hstore : w₁.store (some id) f = some w₂) : Extends w w₂ := by
  obtain ⟨hscope, hfirst, hlast, hcount, hnodes⟩ := h
  unfold Writer.store at hstore
  simp only at hstore
  split at hstore
  · cases hstore
    refine ⟨hscope, hfirst, hlast, hcount, List.prefix_iff_getElem?.mpr fun i hi => ?_⟩
    rw [List.getElem?_modify_ne _ _ (Nat.ne_of_gt (Nat.lt_of_lt_of_le hi hid))]
    exact List.prefix_iff_getElem?.mp hnodes i hi
  · cases hstore

theorem arenaAllocate_extends (env : Env) (w : Writer) (size : Nat) :
    Extends w (arenaAllocate env w size).2 := by
  unfold arenaAllocate
  simp only
  split <;> exact ⟨rfl, rfl, rfl, rfl, List.prefix_rfl⟩

theorem arenaClone_extends (env : Env) (w : Writer) (data : Bytes) :
    Extends w (arenaClone env w data).2.2 := by
  unfold arenaClone
  split
  · exact .refl w
  · have hallocate := arenaAllocate_extends env w data.length
    generalize arenaAllocate env w data.length = r at hallocate
    obtain ⟨allocated, w₁⟩ := r
    cases allocated <;> exact hallocate

theorem allocNode_extends {env : Env} {w w' : Writer} {node : Option NodeId}
    (h : allocNode env w = (node, w')) :
    Extends w w' ∧ ∀ id ∈ node, w.nodes.length ≤ id := by
  have hallocate := arenaAllocate_extends env w nodeSize
  unfold allocNode at h
  generalize arenaAllocate env w nodeSize = r at h hallocate
  obtain ⟨allocated, w₁⟩ := r
  cases allocated with
  | false =>
    cases h
    exact ⟨hallocate.trans ⟨rfl, rfl, rfl, rfl, List.prefix_rfl⟩, nofun⟩
  | true =>
    cases h
    refine ⟨hallocate.trans ⟨rfl, rfl, rfl, rfl, List.prefix_append _ _⟩, fun id hid => ?_⟩
    cases hid
    exact hallocate.nodes.length_le

theorem setKey_extends {env : Env} {w w₁ w₂ : Writer} {id : NodeId} {key : KeyArg} {stored : Bool}
    (h : Extends w w₁) (hid : w.nodes.length ≤ id)
    (hset : setKey env w₁ id key = some (stored, w₂)) : Extends w w₂ := by
  unfold setKey at hset
  split at hset
  · cases hset
    exact h
  rename_i bytes _
  split at hset
  · cases hset
    exact h
  have hclone := arenaClone_extends env w₁ bytes
  split at hset
  · rename_i hrefused
    rw [hrefused] at hclone
    cases hset
    exact h.trans hclone
  · rename_i hcloned
    rw [hcloned] at hclone
    obtain ⟨w₃, hstore, heq⟩ := Option.bind_eq_some_iff.mp hset
    cases heq
    exact (h.trans hclone).store hid hstore

/-- If the call returns `false`, the links of the writer are what they were. -/
def KeepsLinks (w : Writer) (result : Option (Bool × Writer)) : Prop :=
  ∀ w', result = some (false, w') → Extends w w'

namespace KeepsLinks

theorem accepted (w w' : Writer) : KeepsLinks w (some (true, w')) := by
  intro w₁ h
  cases h

theorem refused {w w' : Writer} (h : Extends w w') : KeepsLinks w (some (false, w')) := by
  intro w₁ heq
  cases heq
  exact h

theorem reject {w w' : Writer} (h : Extends w w') : KeepsLinks w w'.reject :=
  refused (h.trans ⟨rfl, rfl, rfl, rfl, List.prefix_rfl⟩)

theorem bind {α : Type} {w : Writer} {m : Option α} {f : α → Option (Bool × Writer)}
    (hf : ∀ a, m = some a → KeepsLinks w (f a)) : KeepsLinks w (m >>= f) := by
  intro w' h
  obtain ⟨a, ha, hfa⟩ := Option.bind_eq_some_iff.mp h
  exact hf a ha w' hfa

end KeepsLinks

section

variable (env : Env) (w : Writer)

theorem addLeaf_keepsLinks (key : Option KeyArg) (kind : Kind) :
    KeepsLinks w (addLeaf env w key kind) := by
  unfold addLeaf
  split
  · exact .refused (.refl w)
  refine .bind fun expected _ => ?_
  split
  · exact .reject (.refl w)
  split
  · rename_i hnone
    exact .refused (allocNode_extends hnone).1
  rename_i node w₁ hsome
  obtain ⟨hextends, hid⟩ := allocNode_extends hsome
  refine .bind fun w₂ hstore => ?_
  have hextends₂ := hextends.store (hid node rfl) hstore
  split
  · exact .bind fun w₃ _ => .accepted w w₃
  refine .bind fun (stored, w₃) hset => ?_
  cases stored with
  | false => exact .reject (setKey_extends hextends₂ (hid node rfl) hset)
  | true => exact .bind fun w₄ _ => .accepted w w₄

theorem addLeafWith_keepsLinks (key : Option KeyArg) (kind : Kind) (payload : Node → Node) :
    KeepsLinks w (addLeafWith env w key kind payload) := by
  unfold addLeafWith
  refine .bind fun (added, w₁) hadded => ?_
  cases added with
  | false => exact .refused (addLeaf_keepsLinks env w key kind w₁ hadded)
  | true => exact .bind fun last _ => .bind fun w₂ _ => .accepted w w₂

theorem beginContainer_keepsLinks (key : KeyArg) (kind : Kind) :
    KeepsLinks w (beginContainer env w key kind) := by
  unfold beginContainer
  split
  · exact .refused (.refl w)
  refine .bind fun inArray _ => .bind fun keyed _ => ?_
  split
  · exact .reject (.refl w)
  split
  · exact .reject (.refl w)
  split
  · rename_i hnone
    exact .refused (allocNode_extends hnone).1
  rename_i node w₁ hsome
  obtain ⟨hextends, hid⟩ := allocNode_extends hsome
  refine .bind fun w₂ hstore => ?_
  have hextends₂ := hextends.store (hid node rfl) hstore
  split
  · refine .bind fun (stored, w₃) hset => ?_
    cases stored with
    | false => exact .reject (setKey_extends hextends₂ (hid node rfl) hset)
    | true => exact .bind fun w₄ _ => .accepted w _
  · exact .bind fun w₃ _ => .accepted w _

theorem endContainer_keepsLinks (kind : Kind) : KeepsLinks w (endContainer w kind) := by
  unfold endContainer
  split
  · exact .refused (.refl w)
  split
  · exact .reject (.refl w)
  refine .bind fun node _ => ?_
  split
  · exact .reject (.refl w)
  · exact .accepted w _

variable {w} {b : Builder} (h : Tracks env w b)

include h

/-- A string whose copy is refused is linked already, but the builder has accepted it. -/
theorem addString_keepsLinks (key : Option KeyArg) (value : Bytes)
    (hrejects : (if value.length ≤ lengthMax then
      (b.place key).map fun k => b.add k (.scalar (.string value)) else none) = none) :
    KeepsLinks w (addString env w key value) := by
  unfold addString
  by_cases hlen : value.length > lengthMax
  · rw [if_pos hlen]
    exact .reject (.refl w)
  rw [if_neg hlen]
  rw [if_pos (Nat.not_lt.mp hlen), Option.map_eq_none_iff] at hrejects
  refine .bind fun (added, w₁) hadded => ?_
  cases added with
  | false => exact .refused (addLeaf_keepsLinks env w key .string w₁ hadded)
  | true =>
    rcases addLeaf_cases h key .string with
      ⟨w₂, id, node, k, -, hplace, -⟩ | ⟨w₂, heq, -, -⟩
    · rw [hrejects] at hplace
      cases hplace
    · rw [hadded] at heq
      cases heq

/-- A call that the builder rejects leaves the links as they are. -/
theorem step_keepsLinks {op : Op} (hrejects : b.step op = none) :
    KeepsLinks w (w.step env op) := by
  cases op with
  | setNull key => exact addLeaf_keepsLinks env w _ _
  | setBool key value => exact addLeaf_keepsLinks env w _ _
  | setInt64 key value => exact addLeafWith_keepsLinks env w _ _ _
  | setUint64 key value => exact addLeafWith_keepsLinks env w _ _ _
  | setFloat64 key bits => exact addLeafWith_keepsLinks env w _ _ _
  | setString key value =>
    exact addString_keepsLinks env h _ _ ((b.set_string key value).symm.trans hrejects)
  | beginBlock key => exact beginContainer_keepsLinks env w _ _
  | endBlock => exact endContainer_keepsLinks w _
  | beginArray key => exact beginContainer_keepsLinks env w _ _
  | endArray => exact endContainer_keepsLinks w _
  | appendNull => exact addLeaf_keepsLinks env w _ _
  | appendBool value => exact addLeaf_keepsLinks env w _ _
  | appendInt64 value => exact addLeafWith_keepsLinks env w _ _ _
  | appendUint64 value => exact addLeafWith_keepsLinks env w _ _ _
  | appendFloat64 bits => exact addLeafWith_keepsLinks env w _ _ _
  | appendString value =>
    exact addString_keepsLinks env h _ _ ((b.append_string value).symm.trans hrejects)

end

/-! ## Refinement -/

/-- The linked nodes are the tree of a builder: `opened` are the nodes on the way from the
current scope up, `done` the finished children of the root. No node occurs twice. -/
structure Represents (hash64 : Bytes → UInt64) (w : Writer) (b : Builder)
    (opened : List OpenNode) (done : List NodeTree) : Prop where
  current : w.currentScope = scopeOf opened
  spine : Spine w none opened done
  nodup : (spineIds opened done).Nodup
  denotes : Matches hash64 w.nodes opened done b

/-- Nodes that nothing points to do not matter. -/
theorem Represents.extends {hash64 : Bytes → UInt64} {w w' : Writer} {b : Builder}
    {opened : List OpenNode} {done : List NodeTree} (h : Represents hash64 w b opened done)
    (hextends : Extends w w') : Represents hash64 w' b opened done := by
  have hsame : ∀ id ∈ spineIds opened done, w'.nodes[id]? = w.nodes[id]? := by
    intro id hid
    have hlt := h.spine.lt_length id hid
    rw [List.prefix_iff_getElem?.mp hextends.nodes id hlt, List.getElem?_eq_getElem hlt]
  refine ⟨hextends.currentScope.trans h.current,
    h.spine.congr ⟨hextends.rootFirst, hextends.rootLast, hextends.rootCount⟩ hsame, h.nodup,
    h.denotes.congr fun id hid => ?_⟩
  rw [SameContent, hsame id hid]

/-- The writer and the machine have rejected a call, or not, and they hold the same tree. -/
structure Agrees (env : Env) (s : StrictBuilder) (w : Writer) : Prop where
  flag : w.errorFlag = s.failed
  represents : ∃ opened done, Represents env.hash64 w s.builder opened done

theorem Agrees.tracks {env : Env} {s : StrictBuilder} {w : Writer} (h : Agrees env s w)
    (hvalid : s.failed = false) : Tracks env w s.builder := by
  obtain ⟨opened, done, hcurrent, hspine, hnodup, hmatches⟩ := h.represents
  exact ⟨h.flag.trans hvalid, opened, done, hcurrent, hspine, hnodup, hmatches⟩

theorem Tracks.agrees {env : Env} {w : Writer} {b : Builder} (h : Tracks env w b) :
    Agrees env { builder := b, failed := false } w := by
  obtain ⟨opened, done, hcurrent, hspine, hnodup, hmatches⟩ := h.shape
  exact ⟨h.valid, opened, done, hcurrent, hspine, hnodup, hmatches⟩

/-- The step: one call of the writer is one call of the machine. -/
theorem step_agrees {env : Env} (hallocates : ∀ i, env.arenaAllocates i = true)
    {s : StrictBuilder} {w : Writer} (h : Agrees env s w) {op : Op}
    (hroom : s.failed = false → w.arenaUsed < 2 ^ 63)
    (hcost : (s.step op).1 = true → w.arenaUsed + op.cost < 2 ^ 63) :
    ∃ w', w.step env op = some ((s.step op).1, w') ∧ Agrees env (s.step op).2 w' ∧
      ((s.step op).1 = true → w'.arenaUsed = w.arenaUsed + op.cost) := by
  rcases s.step_cases op with ⟨hfailed, heq⟩ | ⟨hvalid, b, hb, heq⟩ | ⟨hvalid, hb, heq⟩
  · rw [heq]
    exact ⟨w, step_flagged env (h.flag.trans hfailed) op, h, nofun⟩
  · rw [heq] at hcost ⊢
    rcases step_follows (h.tracks hvalid) (hroom hvalid) op with
      ⟨w', b', hstep, hb', htracks', hused, -⟩ | ⟨-, -, -, hnone | ⟨i, hi⟩ | hfull⟩
    · cases hb.symm.trans hb'
      exact ⟨w', hstep, htracks'.agrees, fun _ => hused⟩
    -- the arena does not refuse
    · rw [hb] at hnone
      cases hnone
    · rw [hallocates i] at hi
      cases hi
    · exact absurd (hcost rfl) (Nat.not_lt.mpr hfull)
  · rw [heq]
    have htracks := h.tracks hvalid
    rcases step_follows htracks (hroom hvalid) op with
      ⟨-, b', -, hb', -⟩ | ⟨w', hstep, hflag, -⟩
    · rw [hb] at hb'
      cases hb'
    · obtain ⟨opened, done, hrepresents⟩ := h.represents
      exact ⟨w', hstep, ⟨hflag, opened, done,
        hrepresents.extends (step_keepsLinks env htracks hb w' hstep)⟩, nofun⟩

/-- A sequence of calls of the writer is one of the machine. -/
theorem attempts_agrees {env : Env} (hallocates : ∀ i, env.arenaAllocates i = true)
    {s : StrictBuilder} {w : Writer} {ops : List Op} (h : Agrees env s w)
    (hroom : s.failed = false → w.arenaUsed + s.memory ops < 2 ^ 63) :
    ∃ w', w.attempts env ops = some ((s.run ops).1, w') ∧ Agrees env (s.run ops).2 w' := by
  induction ops generalizing s w with
  | nil => exact ⟨w, rfl, h⟩
  | cons op ops ih =>
    have hmemory : s.memory (op :: ops) =
        (if (s.step op).1 then op.cost else 0) + (s.step op).2.memory ops := rfl
    have hcost : (s.step op).1 = true →
        w.arenaUsed + op.cost + (s.step op).2.memory ops < 2 ^ 63 := by
      intro haccepted
      rw [hmemory, if_pos haccepted, ← Nat.add_assoc] at hroom
      refine hroom ?_
      rcases s.step_cases op with ⟨-, heq⟩ | ⟨hvalid, -⟩ | ⟨hvalid, -⟩
      · rw [heq] at haccepted
        cases haccepted
      · exact hvalid
      · exact hvalid
    obtain ⟨w₁, hstep, hagrees, hused⟩ := step_agrees hallocates h
      (fun hvalid => Nat.lt_of_le_of_lt (Nat.le_add_right _ _) (hroom hvalid))
      (fun haccepted => Nat.lt_of_le_of_lt (Nat.le_add_right _ _) (hcost haccepted))
    have hroom₁ : (s.step op).2.failed = false →
        w₁.arenaUsed + (s.step op).2.memory ops < 2 ^ 63 := by
      intro hvalid
      have haccepted : (s.step op).1 = true := by
        rcases s.step_cases op with ⟨hfailed, heq⟩ | ⟨-, b, -, heq⟩ | ⟨-, -, heq⟩
        · rw [heq, hfailed] at hvalid
          cases hvalid
        · rw [heq]
        · rw [heq] at hvalid
          cases hvalid
      rw [hused haccepted]
      exact hcost haccepted
    obtain ⟨w₂, hrun, hagrees₂⟩ := ih hagrees hroom₁
    refine ⟨w₂, ?_, hagrees₂⟩
    simp only [Writer.attempts, hstep, hrun, StrictBuilder.run, bind, Option.bind, pure]

theorem create_agrees (env : Env) (options : Option WriterOptions) :
    Agrees env .empty (Writer.create options) := (create_tracks env options).agrees

/-- With allocations that succeed and fewer than 2^32 children per scope, a new writer
answers every sequence of calls as the builder does, and its linked nodes are the tree of
the builder, with exact counts. -/
theorem writer_refines_builder {env : Env} (hallocates : ∀ i, env.arenaAllocates i = true)
    (options : Option WriterOptions) {ops : List Op}
    (hroom : StrictBuilder.empty.memory ops < 2 ^ 63)
    (hnarrow : (StrictBuilder.empty.run ops).2.builder.Narrow) :
    ∃ w opened done,
      (Writer.create options).attempts env ops = some ((StrictBuilder.empty.run ops).1, w) ∧
      w.errorFlag = (StrictBuilder.empty.run ops).2.failed ∧
      Represents env.hash64 w (StrictBuilder.empty.run ops).2.builder opened done ∧
      SpineCounted w none opened done := by
  obtain ⟨w, hrun, hflag, opened, done, hrepresents⟩ :=
    attempts_agrees hallocates (create_agrees env options)
      (fun _ => by rw [Writer.create, Nat.zero_add]; exact hroom)
  exact ⟨w, opened, done, hrun, hflag, hrepresents,
    hrepresents.spine.counted hrepresents.denotes.root hrepresents.denotes.scopes hnarrow⟩

/-- An array with a number, ended as a block. -/
theorem writer_refines_builder_array :
    let ops := [.beginArray (.data [97]), .appendInt64 7, .endBlock]
    ∃ w opened done,
      (Writer.create none).attempts (Env.succeeding fun _ => 0) ops =
        some ((StrictBuilder.empty.run ops).1, w) ∧
      w.errorFlag = (StrictBuilder.empty.run ops).2.failed ∧
      Represents (fun _ => 0) w (StrictBuilder.empty.run ops).2.builder opened done ∧
      SpineCounted w none opened done :=
  writer_refines_builder (fun _ => rfl) none (by decide)
    ⟨by decide, ⟨trivial, trivial⟩, by decide, trivial⟩

end Hrbl
