import Hrbl.Overrun

/-!
# Fixups

Every reference to the pool is recorded once: the pool offset of a string node where the node is
emitted, and those of the keys of a block where its sorted entries are stored. The places are
stated by recursion over the document, and what the emission records are these.
-/

namespace Hrbl

open Lib NodeTree

/-! ## Places -/

/-- What `child_count` says when there are so many children. -/
def childCountOf (count : Nat) : Nat := (UInt32.ofNat count).toNat

theorem childCountOf_eq {count : Nat} (h : count < 2 ^ 32) : childCountOf count = count :=
  toNat_ofNat_of_lt h

mutual

/-- Where a value ends that comes after `pos` bytes of nodes. -/
def valueEnd (pos : Nat) : Value → Nat
  | .scalar s => kindOffset pos s.kind.bodyAlign + 1 + s.kind.bodySize
  | .block members => membersEnd (blockStart pos (childCountOf members.length)) members
  | .array elements => elementsEnd (arrayStart pos (childCountOf elements.length)) elements

def membersEnd (pos : Nat) : List (Bytes × Value) → Nat
  | [] => pos
  | (_, value) :: members => membersEnd (valueEnd pos value) members

def elementsEnd (pos : Nat) : List Value → Nat
  | [] => pos
  | value :: elements => elementsEnd (valueEnd pos value) elements

end

/-- The keys of a block in the order of its entries. -/
def sortedKeys (hash64 : Bytes → UInt64) (members : List (Bytes × Value)) : List Bytes :=
  stableSort (fun key => (hash64 key).toNat) (members.map Prod.fst)

/-- The `key_pool_offset` of the entries of a table. -/
def entryReferences (table : Nat) : List Bytes → List (Nat × Bytes)
  | [] => []
  | key :: keys => (table + 8, key) :: entryReferences (table + 24) keys

/-- The `pool_offset` of a string, at the start of its body. -/
def Scalar.references (body : Nat) : Scalar → List (Nat × Bytes)
  | .string value => [(body, value)]
  | _ => []

mutual

/-- The references to strings in a value that comes after `pos` bytes of nodes: the place of each,
and the string. -/
def valueReferences (hash64 : Bytes → UInt64) (pos : Nat) : Value → List (Nat × Bytes)
  | .scalar s => s.references (kindOffset pos s.kind.bodyAlign + 1)
  | .block members =>
    entryReferences (kindOffset pos 8 + 9) (sortedKeys hash64 members) ++
      membersReferences hash64 (blockStart pos (childCountOf members.length)) members
  | .array elements =>
    elementsReferences hash64 (arrayStart pos (childCountOf elements.length)) elements

def membersReferences (hash64 : Bytes → UInt64) (pos : Nat) :
    List (Bytes × Value) → List (Nat × Bytes)
  | [] => []
  | (_, value) :: members =>
    valueReferences hash64 pos value ++ membersReferences hash64 (valueEnd pos value) members

def elementsReferences (hash64 : Bytes → UInt64) (pos : Nat) : List Value → List (Nat × Bytes)
  | [] => []
  | value :: elements =>
    valueReferences hash64 pos value ++ elementsReferences hash64 (valueEnd pos value) elements

end

/-- The references in the nodes of a document. -/
def documentReferences (hash64 : Bytes → UInt64) (document : Document) : List (Nat × Bytes) :=
  membersReferences hash64 0 document

theorem Scalar.width_image (s : Scalar) : imageWidth s.image = s.kind.bodySize := by
  cases s with
  | bool value => cases value <;> rfl
  | _ => rfl

mutual

/-- The image of a value ends there. -/
theorem valueEnd_eq (hash64 : Bytes → UInt64) (base : Nat) : ∀ {value : Value} (pos : Nat),
    value.Narrow → pos + imageWidth (valueImage hash64 base pos value) = valueEnd pos value
  | .scalar s, pos, _ => by
    have hkind := length_kindImage s.kind.bodyAlign_pos pos s.kind
    rw [valueImage, imageWidth_cons, Chunk.width, s.width_image, valueEnd]
    omega
  | .block members, pos, hnarrow => by
    have hkind := length_kindImage (show 0 < 8 by omega) pos .block
    rw [valueImage_block, imageWidth_cons, imageWidth_append, entriesImage, imageWidth_entries,
      length_stableSort, length_membersImage, Chunk.width, valueEnd, childCountOf_eq hnarrow.1,
      ← membersEnd_eq hash64 base _ hnarrow.2, blockStart]
    simp only [List.length_append, length_le32]
    omega
  | .array elements, pos, hnarrow => by
    have hkind := length_kindImage (show 0 < 8 by omega) pos .array
    rw [valueImage_array, imageWidth_cons, Chunk.width, valueEnd, childCountOf_eq hnarrow.1,
      ← elementsEnd_eq hash64 base _ hnarrow.2]
    simp only [List.length_append, length_le32, length_flatMap_le64, length_elementsImage,
      arrayStart]
    omega

theorem membersEnd_eq (hash64 : Bytes → UInt64) (base : Nat) :
    ∀ {members : List (Bytes × Value)} (pos : Nat), membersNarrow members →
      pos + imageWidth (membersImage hash64 base pos members).2 = membersEnd pos members
  | [], _, _ => rfl
  | (key, value) :: members, pos, hnarrow => by
    rw [membersImage_cons, imageWidth_append, membersEnd, ← valueEnd_eq hash64 base pos hnarrow.1,
      ← membersEnd_eq hash64 base _ hnarrow.2, Nat.add_assoc]

theorem elementsEnd_eq (hash64 : Bytes → UInt64) (base : Nat) :
    ∀ {elements : List Value} (pos : Nat), elementsNarrow elements →
      pos + imageWidth (elementsImage hash64 base pos elements).2 = elementsEnd pos elements
  | [], _, _ => rfl
  | value :: elements, pos, hnarrow => by
    rw [elementsImage_cons, imageWidth_append, elementsEnd,
      ← valueEnd_eq hash64 base pos hnarrow.1, ← elementsEnd_eq hash64 base _ hnarrow.2,
      Nat.add_assoc]

end

/-! ## The references of images -/

theorem references_entries (hash64 : Bytes → UInt64) (members : List (Bytes × Nat)) (table : Nat) :
    references table (members.flatMap (entryImage hash64)) =
      entryReferences table (members.map Prod.fst) := by
  induction members generalizing table with
  | nil => rfl
  | cons m members ih =>
    rw [List.flatMap_cons, references_append, ih, imageWidth_entryImage]
    rfl

theorem Scalar.references_image (s : Scalar) (body : Nat) :
    Lib.references body s.image = s.references body := by
  cases s <;> rfl

mutual

theorem references_value (hash64 : Bytes → UInt64) (base : Nat) : ∀ {value : Value} (pos : Nat),
    value.Narrow →
      references pos (valueImage hash64 base pos value) = valueReferences hash64 pos value
  | .scalar s, pos, _ => by
    rw [valueImage, references, length_kindImage s.kind.bodyAlign_pos, s.references_image,
      valueReferences]
  | .block members, pos, hnarrow => by
    have hkind := length_kindImage (show 0 < 8 by omega) pos .block
    have hkeys : (stableSort (fun m => (hash64 m.1).toNat)
        (membersImage hash64 base (blockStart pos members.length) members).1).map Prod.fst =
          sortedKeys hash64 members := by
      rw [sortedKeys, ← membersImage_keys hash64 base (blockStart pos members.length) members,
        stableSort_map]
    have htable : pos + (kindImage pos .block 8 ++ le32 (UInt32.ofNat members.length) ++
        le32 (UInt32.ofNat (members.length * 24))).length = kindOffset pos 8 + 9 := by
      simp only [List.length_append, length_le32]
      omega
    have hrest := references_members hash64 base (blockStart pos members.length) hnarrow.2
    rw [valueImage_block, references, references_append, entriesImage, references_entries, hkeys,
      imageWidth_entries, length_stableSort, length_membersImage, htable, ← blockStart, hrest,
      valueReferences, childCountOf_eq hnarrow.1]
  | .array elements, pos, hnarrow => by
    have hkind := length_kindImage (show 0 < 8 by omega) pos .array
    have hstart : pos + (kindImage pos .array 8 ++ le32 (UInt32.ofNat elements.length) ++
        le32 (UInt32.ofNat (elements.length * 8)) ++
        (elementsImage hash64 base (arrayStart pos elements.length) elements).1.flatMap
          fun offset => le64 (UInt64.ofNat offset)).length = arrayStart pos elements.length := by
      simp only [List.length_append, length_le32, length_flatMap_le64, length_elementsImage,
        arrayStart]
      omega
    rw [valueImage_array, references, hstart, references_elements hash64 base _ hnarrow.2,
      valueReferences, childCountOf_eq hnarrow.1]

theorem references_members (hash64 : Bytes → UInt64) (base : Nat) :
    ∀ {members : List (Bytes × Value)} (pos : Nat), membersNarrow members →
      references pos (membersImage hash64 base pos members).2 =
        membersReferences hash64 pos members
  | [], _, _ => rfl
  | (key, value) :: members, pos, hnarrow => by
    rw [membersImage_cons, references_append, references_value hash64 base pos hnarrow.1,
      valueEnd_eq hash64 base pos hnarrow.1, membersReferences]
    have hrest := references_members hash64 base (valueEnd pos value) hnarrow.2
    rw [hrest]

theorem references_elements (hash64 : Bytes → UInt64) (base : Nat) :
    ∀ {elements : List Value} (pos : Nat), elementsNarrow elements →
      references pos (elementsImage hash64 base pos elements).2 =
        elementsReferences hash64 pos elements
  | [], _, _ => rfl
  | value :: elements, pos, hnarrow => by
    rw [elementsImage_cons, references_append, references_value hash64 base pos hnarrow.1,
      valueEnd_eq hash64 base pos hnarrow.1, elementsReferences]
    have hrest := references_elements hash64 base (valueEnd pos value) hnarrow.2
    rw [hrest]

end

/-! ## What is recorded, and what is done with it -/

/-- The fixups are at the references of the document, each once; and they add the place of the
strings to each of them, and change nothing else. -/
structure FixupsExact (hash64 : Bytes → UInt64) (document : Document) (nodes : EncoderBuffer)
    (pool : Pool) (stringsOffset : UInt64) : Prop where
  nodup : pool.fixupOffsets.Nodup
  inside : ∀ i ∈ pool.fixupOffsets, i + 4 ≤ nodes.data.length
  places : pool.fixupOffsets.Perm ((documentReferences hash64 document).map Prod.fst)
  applied : ∃ strings patched, pool.buffer.data = poolBytes strings ∧
    Yields (applyFixups nodes pool stringsOffset) (.ok patched) ∧
    (∀ i s, (i, s) ∈ documentReferences hash64 document → s ∈ strings ∧
      HasAt patched.data i
        (le32 (UInt32.ofNat (stringsOffset.toNat + poolOffsetOf strings s)))) ∧
    patched.data.length = nodes.data.length ∧
    ∀ j, (∀ i ∈ pool.fixupOffsets, j < i ∨ i + 4 ≤ j) → patched.data[j]? = nodes.data[j]?

/-- The fixups at the end of the emission of a document whose arrays have narrow counts. -/
theorem Stored.fixupsExact {env : Env} {w : Writer} {trees : List NodeTree}
    {document : Document} (h : Stored env w trees document)
    (harrays : membersArraysNarrow document) {calls₁ calls₂ calls₃ : Calls} {heap : List Node}
    {pool pool' : Pool} {nodes : EncoderBuffer} {entries : List Entry}
    (hcollect : collectRoots env w calls₁ = .ok (heap, pool) calls₂)
    (hemit : emitNodes env w heap pool calls₂ = .ok (nodes, pool', entries) calls₃)
    (stringsOffset : UInt64) :
    FixupsExact env.hash64 document nodes pool' stringsOffset := by
  obtain ⟨hnarrow, hnodes, hpool, hperm, -⟩ := emitNodes_ok h harrays hcollect hemit
  have hreferences := references_members env.hash64 (nodesStart document) 0 hnarrow.2
  have hwidth : nodes.data.length =
      0 + imageWidth (membersImage env.hash64 (nodesStart document) 0 document).2 := by
    rw [hnodes, length_render, Nat.zero_add]
  constructor
  · exact hperm.nodup_iff.mpr (refOffsets_nodup _ _)
  · intro i hi
    rw [hwidth]
    exact refOffsets_inside (hperm.mem_iff.mp hi)
  · rw [documentReferences, ← hreferences, references_fst]
    exact hperm
  · obtain ⟨data, capacity⟩ := nodes
    have happly := applyFixups_yields (relative (collectedStrings document)) capacity hperm
      stringsOffset
    obtain rfl : data = _ := hnodes
    refine ⟨documentStrings env.hash64 document, _, hpool.buffer, happly, ?_, ?_, ?_⟩
    · intro i s hmem
      rw [documentReferences, ← hreferences] at hmem
      have htarget : s ∈ refTargets
          (membersImage env.hash64 (nodesStart document) 0 document).2 := by
        rw [← references_snd 0]
        exact List.mem_map_of_mem hmem
      have hs := mem_documentStrings (List.mem_append_right _ htarget)
      have hrelative : relative (collectedStrings document) s =
          UInt32.ofNat (poolOffsetOf (documentStrings env.hash64 document) s) := by
        rw [relative, poolOffsetOf_prefix (documentStrings_isPrefix env.hash64 document) hs]
      have hafter := hasAt_reference
        (fun s => relative (collectedStrings document) s + stringsOffset.toUInt32) [] [] hmem
      rw [List.nil_append, List.append_nil, hrelative] at hafter
      have hsum : UInt32.ofNat (poolOffsetOf (documentStrings env.hash64 document) s) +
          stringsOffset.toUInt32 = UInt32.ofNat
            (stringsOffset.toNat + poolOffsetOf (documentStrings env.hash64 document) s) := by
        rw [UInt32.ofNat_add, UInt32.add_comm]
        rfl
      rw [hsum] at hafter
      exact ⟨hs, hafter⟩
    · rw [length_render, length_render]
    · intro j hj
      refine getElem?_render_congr _ _ 0 fun i hi => ?_
      rw [Nat.zero_add]
      exact hj i (hperm.mem_iff.mpr hi)

/-! ## A count that has wrapped -/

/-- The offset of an element that is stored over the first string of its array is not the offset of
that string, whatever is added to it. -/
theorem not_fixupsExact {env : Env} {workerCount : UInt64} {n : Nat} {nodes : EncoderBuffer} {pool : Pool}
    (hwrap : UInt32.ofNat n = 0) (hn : 0 < n)
    (hheld : CopiesHeld env workerCount [[0x61], [0x78]] 152 16 n nodes pool) (stringsOffset : UInt64) :
    ¬FixupsExact env.hash64 (copies [0x61] [0x78] n) nodes pool stringsOffset := by
  intro hexact
  obtain ⟨strings, patched, hpool, happly, hreferences, -, -⟩ := hexact.applied
  have hmem : (20, [0x78]) ∈ documentReferences env.hash64 (copies [0x61] [0x78] n) := by
    obtain ⟨m, rfl⟩ : ∃ m, n = m + 1 := ⟨n - 1, by omega⟩
    have hcount : childCountOf (List.replicate (m + 1) (Value.scalar (.string [0x78]))).length =
        0 := by
      rw [List.length_replicate, childCountOf, hwrap]
      rfl
    rw [documentReferences, copies, membersReferences, valueReferences, hcount,
      List.replicate_succ, elementsReferences]
    refine List.mem_append_left _ (List.mem_append_left _ ?_)
    exact List.mem_singleton.mpr rfl
  obtain ⟨hs, hstored⟩ := hreferences 20 [0x78] hmem
  -- the word there is the upper half of an offset, which is zero
  have hzero : HasAt nodes.data 20 (leBytes 4 (0 : UInt32).toNat) :=
    (by decide +kernel : leBytes 4 (0 : UInt32).toNat <+:
      (le64 (UInt64.ofNat (152 + 16 + 3))).drop 4).trans
        ((hheld.first hn).drop 4 (by rw [length_le64]; omega))
  have hadded : HasAt patched.data 20 (le32 (0 + stringsOffset.toUInt32)) := by
    obtain ⟨calls, hcalls⟩ := happly default
    rw [applyFixups] at hcalls
    cases hfold : pool.fixupOffsets.foldlM (addWordAt stringsOffset.toUInt32) nodes.data with
    | none =>
      rw [hfold] at hcalls
      cases hcalls
    | some data =>
      rw [hfold] at hcalls
      cases hcalls
      have hmem20 : 20 ∈ pool.fixupOffsets := by
        rw [hheld.fixups]
        exact List.mem_map.mpr ⟨0, List.mem_range.mpr hn, rfl⟩
      refine foldlM_addWordAt_word hfold hmem20 hexact.nodup ?_ hzero
      intro j hj hne
      rw [hheld.fixups] at hj
      obtain ⟨k, -, rfl⟩ := List.mem_map.mp hj
      omega
  have hsum : UInt32.ofNat (stringsOffset.toNat + poolOffsetOf strings [0x78]) =
      0 + stringsOffset.toUInt32 := (u32At_of_hasAt hstored).symm.trans (u32At_of_hasAt hadded)
  -- so the string would have to be the first one of the pool
  have hrecord := hasAt_record hs
  have hinside := poolOffsetOf_lt hs
  rw [← hpool, hheld.strings.buffer] at hrecord hinside
  have hlength : (poolBytes [[0x61], [0x78]]).length = 16 := by decide +kernel
  have hoffset : poolOffsetOf strings [0x78] = 0 := by
    have hnumbers := congrArg UInt32.toNat hsum
    rw [UInt32.zero_add, UInt64.toNat_toUInt32, UInt32.toNat_ofNat'] at hnumbers
    have hlt := length_record [0x78]
    omega
  rw [hoffset] at hrecord
  have hprefix : record [0x78] <+: (poolBytes [[0x61], [0x78]]).drop 0 := hrecord
  exact absurd hprefix (by decide +kernel)

/-- Where no array has 2^32 elements, every reference to the pool is a fixup at the end of the
emission, once, and nothing else is. -/
theorem fixups_hit_references {env : Env} {options : Option WriterOptions}
    {ops : List Op} {w : Writer} (hrun : (Writer.create options).runs env ops = some w)
    (hclosed : w.currentScope = none) :
    ∃ document : Document, Builder.empty.run ops = some ⟨document, []⟩ ∧
      (membersArraysNarrow document →
        ∀ calls₁ calls₂ calls₃ heap pool pool' nodes entries stringsOffset,
          collectRoots env w calls₁ = .ok (heap, pool) calls₂ →
          emitNodes env w heap pool calls₂ = .ok (nodes, pool', entries) calls₃ →
          FixupsExact env.hash64 document nodes pool' stringsOffset) := by
  obtain ⟨⟨document, scopes⟩, hb, htracks, -, -⟩ :=
    runs_tracks (create_tracks env options) (by simp [Writer.create]) hrun
  obtain ⟨rfl, trees, hstored⟩ := htracks.stored hclosed
  refine ⟨document, hb, ?_⟩
  intro harrays calls₁ calls₂ calls₃ heap pool pool' nodes entries stringsOffset hcollect hemit
  exact hstored.fixupsExact harrays hcollect hemit stringsOffset

/-- A string under a key. -/
theorem fixups_hit_references_string :
    ∃ w calls₁ calls₂ heap pool pool' nodes entries,
      (Writer.create none).runs (.succeeding fun _ => 0) [.setString (.data [0x6B]) [0x76]] =
        some w ∧
      collectRoots (.succeeding fun _ => 0) w w.calls = .ok (heap, pool) calls₁ ∧
      emitNodes (.succeeding fun _ => 0) w heap pool calls₁ =
        .ok (nodes, pool', entries) calls₂ ∧
      FixupsExact (fun _ => 0) [([0x6B], .scalar (.string [0x76]))] nodes pool' 176 := by
  have henv := Env.succeeding_succeeds fun _ => 0
  obtain ⟨w, hrun, hclosed, hworkers⟩ : ∃ w, (Writer.create none).runs (.succeeding fun _ => 0)
      [.setString (.data [0x6B]) [0x76]] = some w ∧ w.currentScope = none ∧
      WorkersFit w.options.workerCount := ⟨_, rfl, rfl, by decide⟩
  obtain ⟨document, hb, hexact⟩ := fixups_hit_references hrun hclosed
  obtain rfl : document = [([0x6B], .scalar (.string [0x76]))] := by cases hb; rfl
  obtain ⟨b, hb', htracks, -, -⟩ :=
    runs_tracks (create_tracks (.succeeding fun _ => 0) none) (by simp [Writer.create]) hrun
  cases hb.symm.trans hb'
  obtain ⟨-, trees, hstored⟩ := htracks.stored hclosed
  obtain ⟨heap, pool, hcollect, hpool, -, hchanged⟩ := collectRoots_yields henv hstored
    ⟨fun _ => by decide, fun _ => by decide, trivial⟩
  obtain ⟨calls₁, hcollect⟩ := hcollect w.calls
  obtain ⟨capacity, pool', fixups, hemit, -⟩ := emitNodes_yields henv hstored
    ⟨by decide, trivial, trivial⟩ (hworkers.document _)
    (fun hempty => absurd hempty (by decide +kernel)) hpool hchanged
  obtain ⟨calls₂, hemit⟩ := hemit calls₁
  exact ⟨w, calls₁, calls₂, heap, pool, pool', _, _, hrun, hcollect, hemit,
    hexact ⟨trivial, trivial⟩ _ _ _ _ _ _ _ _ _ hcollect hemit⟩

/-- An array of 2^32 strings: its count is stored as zero, so no room is reserved for the offsets
of its elements, and the first of them is stored over the reference of the first string. -/
theorem fixups_miss_references :
    ¬∀ (env : Env) (options : Option WriterOptions) (ops : List Op) (w : Writer),
      (Writer.create options).runs env ops = some w → w.currentScope = none →
      ∃ document : Document, Builder.empty.run ops = some ⟨document, []⟩ ∧
        ∀ calls₁ calls₂ calls₃ heap pool pool' nodes entries stringsOffset,
          collectRoots env w calls₁ = .ok (heap, pool) calls₂ →
          emitNodes env w heap pool calls₂ = .ok (nodes, pool', entries) calls₃ →
          FixupsExact env.hash64 document nodes pool' stringsOffset := by
  intro hall
  obtain ⟨n, hwrap, hone, hlt⟩ := exists_wrapping
  have hn : 0 < n := Nat.zero_lt_of_lt hone
  have henv := Env.succeeding_succeeds fun _ => 0
  obtain ⟨w, trees, hrun, hclosed, hstored⟩ :=
    runs_copyOps henv none (by decide) (by decide) (copies_room hlt)
  obtain ⟨document, hb, hexact⟩ := hall _ _ _ w hrun hclosed
  cases hb.symm.trans (run_copyOps (by decide) (by decide) n)
  obtain ⟨hcollected, hfit⟩ := collectedStrings_copies hn
  obtain ⟨heap, pool, hcollect, hpool, hnone, hchanged⟩ := collectRoots_yields henv hstored hfit
  obtain ⟨calls₁, hcollect⟩ := hcollect w.calls
  obtain ⟨nodes, pool', entry, hemit, hheld⟩ :=
    copies_emitNodes henv hstored hwrap hlt hn (by decide) (by decide) hpool hnone hchanged
  obtain ⟨calls₂, hemit⟩ := hemit calls₁
  rw [hcollected] at hheld
  exact not_fixupsExact hwrap hn hheld 0 (hexact _ _ _ _ _ _ _ _ 0 hcollect hemit)

end Hrbl
