import Hrbl.Reaching

/-!
# Arrays whose count does not fit

`child_count` has 32 bits, and no call checks it. After 2^32 elements it is zero again: no table is
reserved for the array, and the offsets of its elements are stored over the elements themselves.
-/

namespace Hrbl

open Lib NodeTree

variable {workerCount : UInt64}

/-- An array of so many copies of a string, under a key. -/
def copies (key s : Bytes) (n : Nat) : Document :=
  [(key, .array (List.replicate n (.scalar (.string s))))]

/-- The nodes after so many copies, when the offsets of elements are stored where they start: each
copy takes 12 bytes, and the offset of the first one is over its own kind byte. -/
structure CopiesHeld (env : Env) (workerCount : UInt64) (C : List Bytes) (base start i : Nat)
    (nodes : EncoderBuffer) (pool : Pool) : Prop where
  length : nodes.data.length = start + 12 * i
  fits : nodes.data.length ≤ nodes.capacity
  strings : PoolHolds env.hash64 workerCount C pool
  fixups : pool.fixupOffsets = (List.range i).map fun j => start + 12 * j + 4
  first : 0 < i → HasAt nodes.data start (le64 (UInt64.ofNat (base + start + 3)))

theorem kindOffset_string {pos : Nat} (h : 4 ∣ pos) : kindOffset pos 4 = pos + 3 := by
  obtain ⟨k, rfl⟩ := h
  rw [kindOffset, alignUpNat]
  omega

theorem imageWidth_string {hash64 : Bytes → UInt64} {base pos : Nat} {s : Bytes} (h : 4 ∣ pos) :
    imageWidth (valueImage hash64 base pos (.scalar (.string s))) = 12 := by
  have hkind := length_kindImage (show 0 < 4 by omega) pos .string
  rw [kindOffset_string h] at hkind
  change (kindImage pos .string 4).length + (4 + (4 + 0)) = 12
  omega

theorem refOffsets_string {hash64 : Bytes → UInt64} {base pos : Nat} {s : Bytes} (h : 4 ∣ pos) :
    refOffsets pos (valueImage hash64 base pos (.scalar (.string s))) = [pos + 4] := by
  have hkind := length_kindImage (show 0 < 4 by omega) pos .string
  rw [kindOffset_string h] at hkind
  change [pos + (kindImage pos .string 4).length] = [pos + 4]
  rw [hkind]

section

variable {env : Env} {base start : Nat} {C : List Bytes} {heap₀ heap : List Node} {s : Bytes}

/-- One more copy. -/
theorem copyTurn_yields (henv : env.Succeeds) (hstart : 4 ∣ start) (hs : s ≠ []) {t : NodeTree}
    {key : Bytes} {i : Nat} {nodes : EncoderBuffer} {pool : Pool} {depth : Nat}
    (hready : Ready env workerCount C heap₀ heap t key (.scalar (.string s)))
    (hdepth : t.ids.length ≤ depth) (hi : i < 2 ^ 32)
    (hheld : CopiesHeld env workerCount C base start i nodes pool) :
    ∃ nodes' pool', Yields (elementTurn (emitValue env heap (UInt64.ofNat base) depth) start
        t.nodeId (nodes, pool, UInt32.ofNat i)) (.ok (nodes', pool', UInt32.ofNat (i + 1))) ∧
      CopiesHeld env workerCount C base start (i + 1) nodes' pool' := by
  have hindex := toNat_ofNat_of_lt hi
  have hlength := hheld.length
  have hpos : 4 ∣ nodes.data.length := by omega
  have hroom : [] ∈ refTargets
      (valueImage env.hash64 base nodes.data.length (.scalar (.string s))) → UsesFit C [[]] := by
    intro hmem
    exact absurd (List.mem_singleton.mp hmem).symm hs
  obtain ⟨capacity, pool', fixups, hyields, hfits, hpool', hfixups, hperm⟩ :=
    emitValue_yields henv nodes hready hdepth (.inl rfl) hheld.strings hroom
  have hempty : [] ∉ refTargets
      (valueImage env.hash64 base nodes.data.length (.scalar (.string s))) := by
    intro hmem
    exact hs (List.mem_singleton.mp hmem).symm
  rw [withEmpty, if_neg hempty] at hpool'
  have hkind : kindOffset nodes.data.length (Value.scalar (.string s)).bodyAlign =
      nodes.data.length + 3 := kindOffset_string hpos
  rw [refOffsets_string hpos] at hperm
  rw [hkind] at hyields
  generalize himage : render (relative C)
    (valueImage env.hash64 base nodes.data.length (.scalar (.string s))) = image at *
  have hwidth : image.length = 12 := by
    rw [← himage, length_render, imageWidth_string hpos]
  have hdata : (nodes.data ++ image).length = start + 12 * (i + 1) := by
    rw [List.length_append, hwidth, hlength]
    omega
  have hin : start + i * 8 + (le64 (UInt64.ofNat (base + (nodes.data.length + 3)))).length ≤
      (nodes.data ++ image).length := by
    rw [hdata, length_le64]
    omega
  have hstore : Yields (storeAt { data := nodes.data ++ image, capacity } (start + i * 8)
      (le64 (UInt64.ofNat (base + (nodes.data.length + 3))))) (.ok {
        data := overwrite (nodes.data ++ image) (start + i * 8)
          (le64 (UInt64.ofNat (base + (nodes.data.length + 3))))
        capacity }) := by
    rw [storeAt, if_pos (hin.trans hfits)]
    have hsame : (overwrite (nodes.data ++ image) (start + i * 8)
        (le64 (UInt64.ofNat (base + (nodes.data.length + 3))))).take
          (nodes.data ++ image).length = overwrite (nodes.data ++ image) (start + i * 8)
            (le64 (UInt64.ofNat (base + (nodes.data.length + 3)))) :=
      List.take_of_length_le (Nat.le_of_eq (length_overwrite hin))
    dsimp only
    rw [hsame]
    exact yields_pure _
  refine ⟨⟨overwrite (nodes.data ++ image) (start + i * 8)
    (le64 (UInt64.ofNat (base + (nodes.data.length + 3)))), capacity⟩, pool', ?_, ?_⟩
  · rw [UInt32.ofNat_add]
    refine hyields.bind ?_
    simp only [hindex]
    exact hstore.bind (yields_pure _)
  constructor
  · exact (length_overwrite hin).trans hdata
  · exact (Nat.le_of_eq (length_overwrite hin)).trans hfits
  · exact hpool'
  · rw [hfixups, List.perm_singleton.mp hperm, hheld.fixups, List.range_succ, List.map_append,
      hlength]
    rfl
  · intro _
    rcases Nat.eq_zero_or_pos i with rfl | hi
    -- the offset of the first copy is stored over its own start
    · have hself := hasAt_overwrite_self hin
      have hplace : base + (nodes.data.length + 3) = base + start + 3 := by omega
      rw [hplace] at hself ⊢
      exact hself
    -- the others are stored behind it
    · have hbefore : HasAt (nodes.data ++ image) start
          (le64 (UInt64.ofNat (base + start + 3))) := by
        refine (hheld.first hi).congr fun j hj => ?_
        rw [length_le64] at hj
        exact List.getElem?_append_left (by omega)
      refine hbefore.overwrite hin (.inl ?_)
      rw [length_le64]
      omega

/-- All of the copies. -/
theorem copiesLoop_yields (henv : env.Succeeds) (hstart : 4 ∣ start) (hs : s ≠ []) {n : Nat} :
    ∀ {ts : List NodeTree} {i turns depth : Nat} {nodes : EncoderBuffer} {pool : Pool},
      ReadyChain env workerCount C heap₀ heap ts (List.replicate n ([], .scalar (.string s))) →
      (idsOf ts).length ≤ depth → ts.length ≤ turns → i + n ≤ 2 ^ 32 →
      CopiesHeld env workerCount C base start i nodes pool →
      ∃ nodes' pool', Yields (forSiblingsIn heap
          (fun id _ => elementTurn (emitValue env heap (UInt64.ofNat base) depth) start id) turns
          (firstId ts none) (nodes, pool, UInt32.ofNat i))
          (.ok (nodes', pool', UInt32.ofNat (i + n))) ∧
        CopiesHeld env workerCount C base start (i + n) nodes' pool' := by
  induction n with
  | zero =>
    intro ts i turns depth nodes pool hready _ _ _ hheld
    cases hready.denotes
    exact ⟨nodes, pool, forSiblings_none _ _, hheld⟩
  | succ n ih =>
    intro ts i turns depth nodes pool hready hdepth hturns hi hheld
    rw [List.replicate_succ] at hready
    cases ts with
    | nil => cases hready.denotes
    | cons t ts =>
      obtain ⟨node, hnode, -, hnext⟩ := hready.first
      rw [idsOf, List.length_append] at hdepth
      rw [List.length_cons] at hturns
      obtain ⟨nodes₁, pool₁, hturn, hheld₁⟩ := copyTurn_yields henv hstart hs hready.head
        (show t.ids.length ≤ depth by omega) (by omega) hheld
      obtain ⟨nodes₂, pool₂, hrest, hheld₂⟩ := ih hready.tail
        (show (idsOf ts).length ≤ depth by omega) (show ts.length ≤ turns - 1 by omega)
        (by omega) hheld₁
      rw [Nat.add_right_comm, Nat.add_assoc] at hrest hheld₂
      refine ⟨nodes₂, pool₂, ?_, hheld₂⟩
      obtain ⟨turns, rfl⟩ : ∃ more, turns = more + 1 := ⟨turns - 1, by omega⟩
      refine forSiblings_some (derefNode_yields hnode) hturn (derefNode_yields hnode) ?_
      rw [Node.cached_nextSibling, hnext]
      exact hrest

end

theorem membersNarrow_copies (key s : Bytes) (n : Nat) :
    membersNarrow (List.replicate n (key, .scalar (.string s))) := by
  induction n with
  | zero => trivial
  | succ n ih => exact ⟨trivial, ih⟩

theorem membersSortable_copies (key s : Bytes) (n : Nat) :
    membersSortable workerCount (List.replicate n (key, .scalar (.string s))) := by
  induction n with
  | zero => trivial
  | succ n ih => exact ⟨trivial, ih⟩

theorem mem_membersUses_copies {key s u : Bytes} {n : Nat}
    (h : u ∈ membersUses (List.replicate n (key, .scalar (.string s)))) : u ∈ keyUses key ∨ u = s := by
  induction n with
  | zero => cases h
  | succ n ih =>
    rw [List.replicate_succ, membersUses, List.mem_append, List.mem_append] at h
    rcases h with (h | h) | h
    · exact .inl h
    · exact .inr (List.mem_singleton.mp h)
    · exact ih h

section

variable {env : Env} (henv : env.Succeeds) {w : Writer} {trees : List NodeTree} {key s : Bytes}
  {n : Nat}

include henv

/-- The array when its count is zero again. -/
theorem copiesArray_yields {C : List Bytes} {heap₀ heap : List Node} {t : NodeTree}
    (base : Nat) {depth : Nat} {pool : Pool} (hwrap : UInt32.ofNat n = 0) (hlt : n ≤ 2 ^ 32)
    (hs : s ≠ []) (hmem : s ∈ C)
    (hcollected : Collected env.hash64 C heap₀ heap t key
      (.array (List.replicate n (.scalar (.string s)))))
    (hdepth : t.ids.length ≤ depth) (hpool : PoolHolds env.hash64 workerCount C pool)
    (hnone : pool.fixupOffsets = []) (capacity : Nat) :
    ∃ nodes pool', Yields (emitValue env heap (UInt64.ofNat base) depth t.nodeId
        { data := [], capacity } pool) (.ok (nodes, pool', UInt64.ofNat base + UInt64.ofNat 7)) ∧
      CopiesHeld env workerCount C base 16 n nodes pool' := by
  obtain ⟨id, ts⟩ := t
  obtain ⟨node, hnode, hkind, hcount, hfirst, hchain⟩ := hcollected.array
  rw [List.map_replicate] at hchain
  have hready : ReadyChain env workerCount C heap₀ heap ts
      (List.replicate n ([], .scalar (.string s))) := by
    refine ⟨hchain, fun u hu => ?_, membersNarrow_copies [] s n, membersSortable_copies [] s n⟩
    rcases mem_membersUses_copies hu with hu | rfl
    · cases hu
    · exact hmem
  rw [ids, List.length_cons] at hdepth
  obtain ⟨depth, rfl⟩ : ∃ more, depth = more + 1 := ⟨depth - 1, by omega⟩
  rw [List.length_replicate, hwrap] at hcount
  obtain ⟨c₁, c₂, c₃, c₄, h₁, h₂, h₃, h₄, hfits⟩ := emitContainer_yields henv
    { data := [], capacity } .array (le32 node.childCount ++ le32 (node.childCount * 8))
    (node.childCount.toNat * 8)
  -- the count has wrapped to zero, so no room is reserved
  have hzero : node.childCount.toNat * 8 = 0 := by
    rw [hcount]
    rfl
  have hlength : ([] ++ (kindImage 0 .array 8 ++
      (le32 node.childCount ++ le32 (node.childCount * 8)))).length = 16 := by
    have hkind := length_kindImage (show 0 < 8 by omega) 0 .array
    have hseven : kindOffset 0 8 = 7 := rfl
    simp only [List.nil_append, List.length_append, length_le32]
    omega
  rw [hzero, List.replicate_zero, List.append_nil] at h₄ hfits
  have hheld : CopiesHeld env workerCount C base 16 0 { data := [] ++ (kindImage 0 .array 8 ++
      (le32 node.childCount ++ le32 (node.childCount * 8))), capacity := c₄ } pool :=
    ⟨hlength, hfits, hpool, hnone, fun h => absurd h (Nat.lt_irrefl 0)⟩
  -- the loop goes over all elements all the same
  obtain ⟨nodes, pool', hloop, hheld'⟩ := copiesLoop_yields henv (by decide : 4 ∣ 16) hs hready
    (show (idsOf ts).length ≤ depth by omega) hchain.length_le_turns (by rwa [Nat.zero_add]) hheld
  rw [Nat.zero_add] at hloop hheld'
  refine ⟨nodes, pool', ?_, hheld'⟩
  rw [emitValue]
  refine (derefNode_yields hnode).bind ?_
  rw [Node.cached_kind, hkind]
  refine (?_ : Yields (emitArray env heap (UInt64.ofNat base) _ _ pool (node.cached C)) _)
  rw [emitArray, Node.cached_childCount, Node.cached_firstChild, hfirst, hzero]
  refine h₁.bind (h₂.bind (h₃.bind (h₄.bind ?_)))
  dsimp only [List.length_nil]
  rw [hlength]
  exact hloop.bind (yields_pure _)

/-- The nodes of the document when the count of its array is zero again. -/
theorem copies_emitNodes (h : Stored env w trees (copies key s n)) (hwrap : UInt32.ofNat n = 0)
    (hlt : n ≤ 2 ^ 32)
    (hn : 0 < n) (hkey : key ≠ []) (hs : s ≠ []) {heap : List Node} {pool : Pool}
    (hpool : PoolHolds env.hash64 workerCount (collectedStrings (copies key s n)) pool)
    (hnone : pool.fixupOffsets = [])
    (hchanged : Changed (Node.cached (collectedStrings (copies key s n))) (idsOf trees) w.nodes
      heap) :
    ∃ nodes pool' entry, Yields (emitNodes env w heap pool) (.ok (nodes, pool', [entry])) ∧
      CopiesHeld env workerCount (collectedStrings (copies key s n)) 152 16 n nodes pool' := by
  have hchain : CollectedChain env.hash64 (collectedStrings (copies key s n)) w.nodes heap trees
      (copies key s n) := ⟨h.denotes, ⟨none, h.siblings⟩, h.nodup, hchanged.inside⟩
  have hmemKey : key ∈ collectedStrings (copies key s n) :=
    mem_internAll.mpr (.inr (mem_keyUses hkey))
  have hmem : s ∈ collectedStrings (copies key s n) := by
    refine mem_internAll.mpr (.inr ?_)
    obtain ⟨m, rfl⟩ : ∃ m, n = m + 1 := ⟨n - 1, by omega⟩
    rw [copies, List.replicate_succ, membersUses, valueUses, elementsUses]
    exact List.mem_append_left _ (List.mem_append_right _
      (List.mem_append_left _ (List.mem_singleton.mpr rfl)))
  have hdepth := h.depth_le hchanged.length_eq
  have hcount : w.rootCount = 1 := by
    rw [h.ends.count_eq, h.denotes.length_eq]
    rfl
  have hfirst := h.ends.first_eq
  generalize collectedStrings (copies key s n) = C at *
  cases trees with
  | nil => cases h.denotes
  -- the root has one member, and its only entry needs no order
  | cons t ts =>
    obtain ⟨node, hnode, hholds, hnext⟩ := hchain.first
    have hlast : ts = [] := by
      have hlength := h.denotes.length_eq
      exact List.length_eq_zero_iff.mp (Nat.succ.inj hlength)
    subst hlast
    rw [idsOf, List.length_append] at hdepth
    obtain ⟨pool₁, hyields₁, hpool₁, hfixups₁⟩ := emitKey_yields henv hholds (fun _ => hmemKey)
      (fun hempty => absurd hempty hkey) (.inl rfl) hpool
    rw [withEmpty, if_neg fun hin => hkey (List.mem_singleton.mp hin).symm] at hpool₁
    rw [hnone] at hfixups₁
    -- the array is emitted over the room that was not reserved
    obtain ⟨nodes, pool₂, hyields₂, hheld⟩ := copiesArray_yields henv 152 hwrap hlt hs hmem
      hchain.head (show t.ids.length ≤ turnsOf heap by omega) hpool₁ hfixups₁ 4096
    generalize hentry : ({ entryWith env.hash64 (relative C) (key, 0) with
      valueOffset := UInt64.ofNat 152 + UInt64.ofNat 7 } : Entry) = entry
    have hmember : Yields (emitMember env (emitValue env heap (UInt64.ofNat 152) (turnsOf heap))
        t.nodeId (node.cached C) { data := [], capacity := 4096 } pool)
        (.ok (nodes, pool₂, entry)) := by
      rw [← hentry]
      exact hyields₁.bind (hyields₂.bind (yields_pure _))
    have hturn : Yields (memberTurn env (emitValue env heap (UInt64.ofNat 152) (turnsOf heap)) 1
        t.nodeId (node.cached C) ({ data := [], capacity := 4096 }, pool, []))
        (.ok (nodes, pool₂, [entry])) := hmember.bind (yields_pure _)
    have hloop : Yields (forSiblingsIn heap
        (memberTurn env (emitValue env heap (UInt64.ofNat 152) (turnsOf heap)) 1) (turnsOf heap)
        (some t.nodeId) ({ data := [], capacity := 4096 }, pool, []))
        (.ok (nodes, pool₂, [entry])) := by
      refine forSiblings_some (derefNode_yields hnode) hturn (derefNode_yields hnode) ?_
      rw [Node.cached_nextSibling, hnext]
      exact forSiblings_none _ _
    have hone : [entry].length < 10000 := by
      rw [List.length_singleton]
      decide
    have hmembers : Yields (emitMembers env heap
        (emitValue env heap (UInt64.ofNat 152) (turnsOf heap)) 1 (some t.nodeId)
        { data := [], capacity := 4096 } pool) (.ok (nodes, pool₂, [entry])) :=
      hloop.bind ((pendingSort_yields henv (.inl hone)).bind (yields_pure _))
    have hinit : Yields (bufferInit env 4096) (.ok ⟨[], 4096⟩) :=
      (allocate_yields henv).bind (yields_pure _)
    refine ⟨nodes, pool₂, entry, ?_, hheld⟩
    rw [emitNodes]
    refine hinit.bind ?_
    rw [hcount, hfirst]
    exact (allocateArray_yields henv _).bind hmembers

end

/-! ## The file -/

/-- The parts are put together wherever their sizes fit into 64 bits. -/
theorem assemble_file {env : Env} (henv : env.Succeeds) {n : UInt32}
    {rootEntries : List Entry} {nodes : EncoderBuffer} {pool : Pool}
    (hcount : rootEntries.length = n.toNat)
    (hfixups : ∀ i ∈ pool.fixupOffsets, i + 4 ≤ nodes.data.length)
    (hsize : 128 + n.toNat * 24 + nodes.data.length + pool.buffer.data.length + 32 < 2 ^ 64) :
    ∃ file, Yields (assemble env n.toUInt64 rootEntries nodes pool) (.ok file) ∧
      (Header.decode file).nodesOffset.toNat = 128 + n.toNat * 24 ∧
      (Header.decode file).nodesSize.toNat = nodes.data.length := by
  generalize hheader : fileHeader n.toUInt64 (UInt64.ofNat nodes.data.length)
    (UInt64.ofNat pool.buffer.data.length) (UInt64.ofNat pool.entries.length) = header
  obtain ⟨patched, hfold, hlength⟩ :=
    foldlM_addWordAt_isSome header.stringsOffset.toUInt32 hfixups
  have happly : Yields (applyFixups nodes pool header.stringsOffset)
      (.ok { nodes with data := patched }) := by
    rw [applyFixups, hfold]
    exact yields_pure _
  have hstart : rootIndexStart.toNat = 128 := rfl
  have hentry : rootEntrySize.toNat = 24 := rfl
  have hfooter : footerSize.toNat = 32 := rfl
  have hn := n.toNat_lt
  have hfits : header.Fits (rootEntries.map (absoluteKey header.stringsOffset)) patched
      pool.buffer.data := by
    rw [← hheader]
    constructor
    all_goals
      simp only [fileHeader, List.length_map, hcount, hlength, UInt64.toNat_add, UInt64.toNat_mul,
        UInt64.toNat_ofNat', hstart, hentry, hfooter, UInt32.toNat_toUInt64]
      omega
  have hnodes := hfits.nodesOffset
  rw [List.length_map, hcount] at hnodes
  have hpayload : header.footerOffset.toNat = 128 +
      ((rootEntries.map (absoluteKey header.stringsOffset)).flatMap Entry.encode ++ patched ++
        pool.buffer.data).length := by
    rw [hfits.footerOffset, hfits.stringsOffset, hnodes, List.length_append, List.length_append,
      length_flatMap_encode, List.length_map, hcount]
    omega
  refine ⟨_, by
    rw [assemble, hheader]
    exact happly.bind ((allocate_yields henv).bind
      ((copyParts_yields hfits).bind (sealOutput_yields env hpayload List.length_replicate))), ?_⟩
  rw [List.append_assoc, Header.decode_of_hasAt (List.prefix_append _ _)]
  refine ⟨hnodes, ?_⟩
  rw [← hheader]
  exact toNat_ofNat_of_lt64 (by omega)

/-! ## Runs -/

/-- The calls that write the copies. -/
def copyOps (key s : Bytes) (n : Nat) : List Op :=
  .beginArray (.data key) :: (List.replicate n (.appendString s) ++ [.endArray])

theorem run_appendString {s : Bytes} (hs : s.length ≤ lengthMax) (n : Nat) (key : Bytes)
    (held : List (Bytes × Value)) :
    (Builder.mk [] [⟨.array, key, held⟩]).run (List.replicate n (.appendString s)) =
      some ⟨[], [⟨.array, key, held ++ List.replicate n ([], .scalar (.string s))⟩]⟩ := by
  induction n generalizing held with
  | zero => rw [List.replicate_zero, List.replicate_zero, List.append_nil, Builder.run]
  | succ n ih =>
    have hstep : (Builder.mk [] [⟨.array, key, held⟩]).step (.appendString s) =
        some ⟨[], [⟨.array, key, held ++ [([], .scalar (.string s))]⟩]⟩ := by
      rw [Builder.step, Builder.append, if_pos ⟨decide_eq_true hs, rfl⟩]
      rfl
    rw [List.replicate_succ, Builder.run, hstep, Option.bind_some, ih, List.replicate_succ]
    simp only [List.append_assoc, List.singleton_append]

theorem run_copyOps {key s : Bytes} (hkey : key.length ≤ lengthMax) (hs : s.length ≤ lengthMax)
    (n : Nat) : Builder.empty.run (copyOps key s n) = some ⟨copies key s n, []⟩ := by
  have hopen : Builder.empty.step (.beginArray (.data key)) =
      some ⟨[], [⟨.array, key, []⟩]⟩ := by
    change Option.map _ (Builder.keyOf (.data key)) = _
    rw [Builder.keyOf, if_pos hkey]
    rfl
  have hclose : (Builder.mk [] [⟨.array, key,
      [] ++ List.replicate n ([], .scalar (.string s))⟩]).step .endArray =
        some ⟨copies key s n, []⟩ := by
    change some (Builder.mk [(key, .array (([] ++ List.replicate n
      (([] : Bytes), Value.scalar (.string s))).map Prod.snd))] []) = _
    rw [List.nil_append, List.map_replicate]
    rfl
  rw [copyOps, Builder.run, hopen, Option.bind_some, Builder.run_append, run_appendString hs,
    Option.bind_some, Builder.run, hclose]
  rfl

theorem copyOps_cost (key s : Bytes) (n : Nat) :
    ((copyOps key s n).map Op.cost).sum =
      nodeSize + key.length + n * (nodeSize + s.length) := by
  rw [copyOps, List.map_cons, List.sum_cons, List.map_append, List.sum_append, List.map_replicate,
    List.sum_replicate]
  rfl

/-- A writer that is refused nothing takes the copies. -/
theorem runs_copyOps {env : Env} (henv : env.Succeeds) (options : Option WriterOptions)
    {key s : Bytes} {n : Nat} (hkey : key.length ≤ lengthMax) (hs : s.length ≤ lengthMax)
    (hroom : nodeSize + key.length + n * (nodeSize + s.length) < 2 ^ 63) :
    ∃ w trees, (Writer.create options).runs env (copyOps key s n) = some w ∧
      w.currentScope = none ∧ Stored env w trees (copies key s n) := by
  have hused : (Writer.create options).arenaUsed = 0 := rfl
  obtain ⟨w, hrun, htracks⟩ := runs_of_builder henv.arena (create_tracks env options)
    (run_copyOps hkey hs n) (by rw [copyOps_cost, hused, Nat.zero_add]; exact hroom)
  obtain ⟨opened, done, hcurrent, -, -, hmatches⟩ := htracks.shape
  have hclosed : w.currentScope = none := by
    cases hmatches.scopes
    exact hcurrent
  obtain ⟨-, trees, hstored⟩ := htracks.stored hclosed
  exact ⟨w, trees, hrun, hclosed, hstored⟩

theorem usesFit_mem {strings uses : List Bytes} (h : ∀ u ∈ uses, u ∈ strings) :
    UsesFit strings uses := by
  induction uses with
  | nil => trivial
  | cons u uses ih =>
    have hmem := h u List.mem_cons_self
    refine ⟨fun hnot => absurd hmem hnot, ?_⟩
    rw [internString_of_mem hmem]
    exact ih fun v hv => h v (List.mem_cons_of_mem _ hv)

/-- The number of children that is zero again. -/
theorem exists_wrapping : ∃ n : Nat, UInt32.ofNat n = 0 ∧ 1 < n ∧ n ≤ 2 ^ 32 :=
  ⟨2 ^ 32, by decide +kernel, by decide, by decide⟩

/-- The copies fit into the arena. -/
theorem copies_room {n : Nat} (hlt : n ≤ 2 ^ 32) :
    nodeSize + [(0x61 : UInt8)].length + n * (nodeSize + [(0x78 : UInt8)].length) < 2 ^ 63 := by
  have hsizes : nodeSize + [(0x61 : UInt8)].length + n * (nodeSize + [(0x78 : UInt8)].length) =
      89 + n * 89 := rfl
  omega

/-- The strings of the copies of one letter, under a key of one other. -/
theorem collectedStrings_copies {n : Nat} (hn : 0 < n) :
    collectedStrings (copies [0x61] [0x78] n) = [[0x61], [0x78]] ∧
      UsesFit [] (membersUses (copies [0x61] [0x78] n)) := by
  obtain ⟨m, rfl⟩ : ∃ m, n = m + 1 := ⟨n - 1, by omega⟩
  have huses : membersUses (copies [0x61] [0x78] (m + 1)) =
      [[0x61], [0x78]] ++ elementsUses (List.replicate m (.scalar (.string [0x78]))) := by
    rw [copies, List.replicate_succ]
    simp only [membersUses, valueUses, elementsUses, Scalar.uses, keyUses, List.append_nil]
    rfl
  have hmem : ∀ u ∈ elementsUses (List.replicate m (.scalar (.string [0x78]))),
      u ∈ ([[0x61], [0x78]] : List Bytes) := by
    intro u hu
    rw [← membersUses_elements, List.map_replicate] at hu
    rcases mem_membersUses_copies hu with hu | rfl
    · cases hu
    · exact List.mem_cons_of_mem _ List.mem_cons_self
  have hfirst : internAll [] [[0x61], [0x78]] = ([[0x61], [0x78]] : List Bytes) := rfl
  constructor
  · rw [collectedStrings, huses, internAll_append, hfirst]
    generalize elementsUses (List.replicate m (.scalar (.string [0x78]))) = uses at hmem
    induction uses with
    | nil => rfl
    | cons u uses ih =>
      rw [internAll, List.foldl_cons, internString_of_mem (hmem u List.mem_cons_self)]
      exact ih fun v hv => hmem v (List.mem_cons_of_mem _ hv)
  · rw [huses, usesFit_append, hfirst]
    refine ⟨⟨fun _ => ?_, ⟨fun _ => ?_, trivial⟩⟩, usesFit_mem hmem⟩
    · decide
    · decide

/-- The copies end up in a file whose nodes have no room for a table. -/
theorem copies_finalized {env : Env} (henv : env.Succeeds) {w : Writer} {trees : List NodeTree}
    {n : Nat} (h : Stored env w trees (copies [0x61] [0x78] n)) (hwrap : UInt32.ofNat n = 0)
    (hn : 0 < n) (hlt : n ≤ 2 ^ 32) :
    ∃ file w', finalizeToBuffer env w = .returned file w' ∧
      (Header.decode file).nodesOffset.toNat = 152 ∧
      (Header.decode file).nodesSize.toNat = 16 + 12 * n := by
  obtain ⟨hcollected, hfit⟩ := collectedStrings_copies hn
  obtain ⟨heap, pool, hcollect, hpool, hnone, hchanged⟩ := collectRoots_yields henv h hfit
  obtain ⟨nodes, pool', entry, hemit, hheld⟩ :=
    copies_emitNodes henv h hwrap hlt hn (by decide) (by decide) hpool hnone hchanged
  rw [hcollected] at hheld
  have hlength := hheld.length
  have hstrings : pool'.buffer.data.length = 16 := by
    rw [hheld.strings.buffer]
    decide +kernel
  have hcount : w.rootCount = 1 := by
    rw [h.ends.count_eq, h.denotes.length_eq]
    rfl
  have hentries : [entry].length = w.rootCount.toNat := by
    rw [hcount]
    rfl
  have hinside : ∀ i ∈ pool'.fixupOffsets, i + 4 ≤ nodes.data.length := by
    intro i hi
    rw [hheld.fixups] at hi
    obtain ⟨j, hj, rfl⟩ := List.mem_map.mp hi
    have hjlt := List.mem_range.mp hj
    omega
  obtain ⟨file, hassemble, hoffset, hsize⟩ := assemble_file henv hentries hinside (by
    rw [← hentries, List.length_singleton]
    omega)
  have hroots : Yields (emitRoots env w heap pool) (.ok file) := by
    rw [emitRoots_eq]
    exact hemit.bind hassemble
  have hyields : Yields (serializeToBuffer env w) (.ok (heap, file)) :=
    hcollect.bind ((leaving_yields heap hroots).bind (yields_pure _))
  obtain ⟨calls, hrun⟩ := hyields w.calls
  refine ⟨file, { w with nodes := heap, calls }, ?_, ?_, ?_⟩
  · rw [finalizeToBuffer, h.valid, h.closed, hrun]
    rfl
  · rw [hoffset, hcount]
    rfl
  · rw [hsize, hlength]

end Hrbl
