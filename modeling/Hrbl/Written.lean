import Hrbl.Alignment
import Hrbl.Clients
import Hrbl.Covering
import Hrbl.Passing

/-!
# The graph of a written file

In the file of a document the nodes that are reached are the values of the document where they
were laid out: each has the body of its kind, and what is below it comes behind it. So the graph
that no pass of the verifier looks at is well formed in every file that the writer returns, and
such a file is safe to read and to export.
-/

namespace Hrbl

open Lib Lib.Outcome

/-! ## References -/

section

variable {hash64 : Bytes → UInt64} {base : Nat}

theorem membersSpots_refs {members : List (Bytes × Value)} (hnarrow : membersNarrow members)
    {pos : Nat} {spot : Spot} (hspot : spot ∈ membersSpots pos members) {u : Bytes}
    (hu : u ∈ refTargets (valueImage hash64 base spot.pos spot.value)) :
    u ∈ refTargets (membersImage hash64 base pos members).2 := by
  induction members generalizing pos with
  | nil => cases hspot
  | cons m members ih =>
    obtain ⟨key, value⟩ := m
    rw [membersImage_cons, refTargets_append, valueEnd_eq hash64 base pos hnarrow.1,
      List.mem_append]
    rcases List.mem_cons.mp hspot with rfl | hspot
    · exact .inl hu
    · exact .inr (ih hnarrow.2 hspot)

/-- A value refers to what its children refer to. -/
theorem Spot.refs_of_child {spot child : Spot} (hnarrow : spot.value.Narrow)
    (hchild : child ∈ spot.children hash64) {u : Bytes}
    (hu : u ∈ refTargets (valueImage hash64 base child.pos child.value)) :
    u ∈ refTargets (valueImage hash64 base spot.pos spot.value) := by
  obtain ⟨key, pos, value⟩ := spot
  cases value with
  | scalar s => cases hchild
  | block members =>
    have hspot := (sortedSpots_perm hash64 _).mem_iff.mp hchild
    exact mem_refTargets_block.mpr
      (List.mem_append_right _ (membersSpots_refs hnarrow.2 hspot hu))
  | array elements =>
    have hmem := membersSpots_refs (membersNarrow_elements hnarrow.2) hchild hu
    rw [valueImage_array, elementsImage_eq]
    exact hmem

end

theorem Value.eq_block {value : Value} (h : value.kind = .block) :
    ∃ members, value = .block members := by
  cases value with
  | block members => exact ⟨members, rfl⟩
  | array elements => cases h
  | scalar s =>
    cases s with
    | bool value => cases value <;> cases h
    | _ => cases h

theorem Value.eq_array {value : Value} (h : value.kind = .array) :
    ∃ elements, value = .array elements := by
  cases value with
  | array elements => exact ⟨elements, rfl⟩
  | block members => cases h
  | scalar s =>
    cases s with
    | bool value => cases value <;> cases h
    | _ => cases h

/-! ## Spots that are kept -/

/-- A spot with its image in the nodes of a file, with no references but to these strings. -/
structure Spot.Kept (hash64 : Bytes → UInt64) (file : Bytes) (base size : Nat)
    (addr : Bytes → UInt32) (strings : List Bytes) (spot : Spot) : Prop where
  held : spot.Held hash64 base file addr
  inside : valueEnd spot.pos spot.value ≤ size
  refs : ∀ u ∈ refTargets (valueImage hash64 base spot.pos spot.value), u ∈ strings

/-- Where the file has a spot. -/
def Spot.offset (base : Nat) (spot : Spot) : UInt64 := UInt64.ofNat (base + spot.kindPos)

section

variable {hash64 : Bytes → UInt64} {r : Reader} {base size : Nat} {addr : Bytes → UInt32}
  {strings : List Bytes} {spot : Spot}

/-- What is a node's own is in the section. -/
theorem Spot.Kept.own_inside (h : spot.Kept hash64 r.base.bytes base size addr strings) :
    spot.kindPos + spot.value.width ≤ size := by
  obtain ⟨htight, -⟩ := nodesNesting_tight hash64 spot h.held.narrow
  exact htight.le_stop.trans h.inside

variable (hplaced : Placed r base size addr strings)

include hplaced

theorem Spot.Held.toNat_offset (h : spot.Held hash64 base r.base.bytes addr) :
    (spot.offset base).toNat = base + spot.kindPos := by
  have hlt := h.lt_length
  have hsmall := hplaced.small
  exact toNat_ofNat_of_lt64 (by omega)

/-- An entry of a table is that of one of its spots. -/
theorem entry_of_spots {spots : List Spot} {table i : Nat} {entry : Entry}
    (hheld : ∀ spot ∈ spots, spot.Held hash64 base r.base.bytes addr)
    (htable : HasAt r.base.bytes table (render addr (entriesImage hash64
      (spots.map fun spot => (spot.key, base + spot.kindPos))))) (hi : i < spots.length)
    (hentry : HasAt r.base.bytes (table + i * 24) entry.encode) :
    ∃ child ∈ sortedSpots hash64 spots, entry.valueOffset = child.offset base := by
  have hsmall := hplaced.small
  have hleads := entry_leads (by omega) hheld htable hi
  rw [Entry.decode_at hentry] at hleads
  obtain ⟨child, hchild, hoffset⟩ := Option.map_eq_some_iff.mp hleads.symm
  refine ⟨child, List.mem_of_getElem? hchild, ?_⟩
  rw [Spot.offset, hoffset, UInt64.ofNat_toNat]

variable (h : spot.Kept hash64 r.base.bytes base size addr strings)

include h

/-- The children of a spot are kept as well, and behind it. -/
theorem Spot.Kept.child {child : Spot} (hchild : child ∈ spot.children hash64) :
    child.Kept hash64 r.base.bytes base size addr strings ∧ spot.kindPos < child.kindPos := by
  have hsmall := hplaced.small
  have hwidth := spot.value.width_pos
  obtain ⟨htight, -⟩ := nodesNesting_tight hash64 spot h.held.narrow
  have hheld := (h.held.childAt hplaced.aligned (by omega) 0).2 child hchild
  obtain ⟨htight', -⟩ := nodesNesting_tight hash64 child hheld.narrow
  constructor
  · refine ⟨hheld, (htight.inside child hchild).trans h.inside, ?_⟩
    exact fun u hu => h.refs u (Spot.refs_of_child h.held.narrow hchild hu)
  · have hbehind : spot.kindPos + spot.value.width ≤ child.pos := htight.behind child hchild
    have hstart : child.pos ≤ child.kindPos := htight'.start_le
    omega

theorem Spot.Kept.kindAt : Hrbl.kindAt r (spot.offset base) = .ok spot.value.kind := by
  have hown := h.own_inside
  have hwidth := spot.value.width_pos
  exact hplaced.kindAt (by omega) h.held.kindByte

/-- The body of a node is right after its kind byte, and in the section. -/
theorem Spot.Kept.body_inside (width : Nat) (hwidth : spot.value.width = 1 + width) :
    alignUpNat ((spot.offset base).toNat + 1) spot.value.kind.bodyAlign = base + spot.kindPos + 1 ∧
      InNodesSection r (base + spot.kindPos + 1) width := by
  have hown := h.own_inside
  constructor
  · rw [h.held.toNat_offset hplaced]
    exact alignUpNat_of_dvd spot.value.kind.bodyAlign_pos (spot.dvd_body hplaced.aligned)
  · rw [InNodesSection, hplaced.base_eq, hplaced.size_eq]
    omega

/-! ## Children -/

theorem Spot.Kept.child_of_entry {entry : Entry} (hentry : EntryOf r (spot.offset base) entry) :
    ∃ child ∈ spot.children hash64, entry.valueOffset = child.offset base := by
  obtain ⟨hkind, header, start, hbody, i, hi, hat⟩ := hentry
  obtain ⟨members, hvalue⟩ := Value.eq_block (Outcome.ok.inj ((h.kindAt hplaced).symm.trans hkind))
  obtain ⟨key, pos, value⟩ := spot
  obtain rfl : value = .block members := hvalue
  have himage := h.held.image
  have hnarrow := h.held.narrow.2
  rw [valueImage_block, render, render_append, List.append_assoc] at himage
  obtain ⟨header', start', hbody', hcount, -, hrest⟩ := hplaced.blockBody _
    (by rwa [List.append_assoc] at himage) ((Nat.add_assoc _ _ _).trans_le h.own_inside)
  cases hbody.symm.trans hbody'
  -- the table that the reader finds is the one in the image
  obtain ⟨htable, -⟩ := hasAt_append.mp hrest
  rw [membersSpots_offsets hash64 base hnarrow] at htable
  refine entry_of_spots hplaced ?_ htable (by rwa [length_membersSpots, ← hcount]) hat
  exact fun spot hspot => (h.child hplaced ((sortedSpots_perm _ _).mem_iff.mpr hspot)).1.held

theorem Spot.Kept.child_of_element {child : UInt64}
    (helement : ElementOf r (spot.offset base) child) :
    ∃ spot' ∈ spot.children hash64, child = spot'.offset base := by
  obtain ⟨hkind, header, start, hbody, i, hi, hat⟩ := helement
  obtain ⟨elements, hvalue⟩ :=
    Value.eq_array (Outcome.ok.inj ((h.kindAt hplaced).symm.trans hkind))
  obtain ⟨key, pos, value⟩ := spot
  obtain rfl : value = .array elements := hvalue
  have himage := h.held.image
  have hnarrow := membersNarrow_elements h.held.narrow.2
  rw [valueImage_array, render, List.append_assoc, List.append_assoc] at himage
  obtain ⟨header', start', hbody', hcount, -, hrest⟩ := hplaced.arrayBody _
    (by rwa [List.append_assoc] at himage) ((Nat.add_assoc _ _ _).trans_le h.own_inside)
  cases hbody.symm.trans hbody'
  obtain ⟨htable, -⟩ := hasAt_append.mp hrest
  rw [elementsImage_eq] at htable
  dsimp only at htable
  rw [membersSpots_offsets hash64 base hnarrow, List.map_map] at htable
  have hspots := length_membersSpots (elements.map fun e => (([] : Bytes), e))
    (arrayStart pos elements.length)
  rw [List.length_map] at hspots
  obtain ⟨spot', hspot'⟩ : ∃ spot', (membersSpots (arrayStart pos elements.length)
      (elements.map fun e => ([], e)))[i]? = some spot' :=
    ⟨_, List.getElem?_eq_getElem (by rwa [hspots, ← hcount])⟩
  refine ⟨spot', List.mem_of_getElem? hspot', ?_⟩
  have hat' := htable.flatMap (fun _ => length_le64 _) (by
    rw [List.getElem?_map, hspot']
    rfl)
  rw [← u64At_of_hasAt hat, u64At_of_hasAt hat']
  rfl

/-! ## Nodes -/

/-- The body of an array. -/
theorem Spot.Kept.arrayFormed {elements : List Value} (hvalue : spot.value = .array elements) :
    BodyFormed r (spot.offset base) .array := by
  obtain ⟨key, pos, value⟩ := spot
  obtain rfl : value = .array elements := hvalue
  obtain ⟨hbody, hinside⟩ := h.body_inside hplaced (8 + elements.length * 8)
    (Nat.add_assoc 1 8 _)
  have hcount : elements.length < 2 ^ 32 := h.held.narrow.1
  obtain ⟨htable, -⟩ := hasAt_arrayImage h.held.image
  rw [← List.flatMap_map] at htable
  change alignUpNat _ 8 = _ at hbody
  simp only [BodyFormed]
  rw [hbody]
  refine ⟨_, _, _, ?_, ?_, htable⟩
  · rw [List.length_map, length_elementsImage, toNat_ofNat_of_lt hcount]
  · rw [List.length_map, length_elementsImage]
    exact hinside

variable (hstrings : ∀ s ∈ strings, InStringsSection r (addr s) (UInt32.ofNat s.length))

include hstrings

/-- The body of a scalar. -/
theorem Spot.Kept.scalarFormed {s : Scalar} (hvalue : spot.value = .scalar s) :
    BodyFormed r (spot.offset base) s.kind := by
  obtain ⟨key, pos, value⟩ := spot
  obtain rfl : value = .scalar s := hvalue
  obtain ⟨hbody, hinside⟩ := h.body_inside hplaced s.kind.bodySize rfl
  cases s with
  | null => trivial
  | bool value => cases value <;> trivial
  | int64 value | uint64 value | float64 value =>
    change alignUpNat _ 8 = _ at hbody
    change InNodesSection r (alignUpNat _ 8) 8
    rw [hbody]
    exact hinside
  | string value =>
    change alignUpNat _ 4 = _ at hbody
    have himage := h.held.image
    obtain ⟨-, hwords⟩ := hasAt_kindImage (show 0 < 4 by omega) himage
    simp only [Scalar.image, render, List.append_nil] at hwords
    simp only [Scalar.kind, BodyFormed]
    rw [hbody]
    exact ⟨hinside, _, _, hwords, hstrings value (h.refs value List.mem_cons_self)⟩

/-- The body of a block: a table with its keys in the strings, in the order of their hashes. -/
theorem Spot.Kept.blockFormed {members : List (Bytes × Value)}
    (hvalue : spot.value = .block members) : BodyFormed r (spot.offset base) .block := by
  obtain ⟨key, pos, value⟩ := spot
  obtain rfl : value = .block members := hvalue
  obtain ⟨hbody, hinside⟩ := h.body_inside hplaced (8 + members.length * 24)
    (Nat.add_assoc 1 8 _)
  have hcount : members.length < 2 ^ 32 := h.held.narrow.1
  obtain ⟨htable, -⟩ := hasAt_blockImage h.held.image
  rw [render_entriesImage] at htable
  change alignUpNat _ 8 = _ at hbody
  simp only [BodyFormed]
  rw [hbody]
  refine ⟨_, _, _, ?_, ?_, htable, ?_, ?_⟩
  · rw [List.length_map, length_stableSort, length_membersImage, toNat_ofNat_of_lt hcount]
  · rw [List.length_map, length_stableSort, length_membersImage]
    exact hinside
  · intro entry hentry
    obtain ⟨m, hm, rfl⟩ := List.mem_map.mp hentry
    have hkey := List.mem_map_of_mem (f := Prod.fst) ((stableSort_perm _ _).mem_iff.mp hm)
    rw [membersImage_keys] at hkey
    exact hstrings m.1 (h.refs _ (mem_refTargets_block.mpr (List.mem_append_left _ hkey)))
  · rw [List.pairwise_map]
    refine (isStableSort_stableSort (fun m : Bytes × Nat => (hash64 m.1).toNat) _).sorted.imp ?_
    exact fun hle => UInt64.le_iff_toNat_le.mpr hle

theorem Spot.Kept.nodeFormed : NodeFormed r (spot.offset base) := by
  refine ⟨_, h.kindAt hplaced, ?_⟩
  cases hvalue : spot.value with
  | scalar s => exact h.scalarFormed hplaced hstrings hvalue
  | block members => exact h.blockFormed hplaced hstrings hvalue
  | array elements => exact h.arrayFormed hplaced hvalue

end

/-! ## Files of documents -/

/-- An offset where a file has a value of the document. -/
def KeptAt (hash64 : Bytes → UInt64) (document : Document) (file : Bytes) (offset : UInt64) : Prop :=
  ∃ spot : Spot, spot.Kept hash64 file (nodesStart document)
    (stringsStart hash64 document - nodesStart document) (documentAddress hash64 document)
    (documentStrings hash64 document) ∧ spot.offset (nodesStart document) = offset

section

variable {hash64 : Bytes → UInt64} {document : Document} {b : Buffer}
  (hbytes : b.bytes = documentFile hash64 document)
  (hsize : documentSize hash64 document < 2 ^ 32)

include hsize in
/-- The strings of a document are in the section for them. -/
theorem document_strings_inside (b : Buffer) : ∀ s ∈ documentStrings hash64 document,
    InStringsSection ⟨b, documentHeader hash64 document⟩ (documentAddress hash64 document s)
      (UInt32.ofNat s.length) := by
  intro s hs
  obtain ⟨hnodes, hstrings, hfooter, hend⟩ := document_parts hash64 document
  obtain ⟨haddress, hlength, hinside⟩ := document_address hsize hs
  have hstart := toNat_ofNat_of_lt64 (show stringsStart hash64 document < 2 ^ 64 by omega)
  have hroom := toNat_ofNat_of_lt64
    (show (poolBytes (documentStrings hash64 document)).length < 2 ^ 64 by omega)
  rw [InStringsSection, haddress, hlength, documentHeader, hstart, hroom]
  omega

include hbytes hsize

/-- The roots are kept. -/
theorem membersSpots_kept : ∀ spot ∈ membersSpots 0 document,
    spot.Kept hash64 b.bytes (nodesStart document)
      (stringsStart hash64 document - nodesStart document) (documentAddress hash64 document)
      (documentStrings hash64 document) := by
  intro spot hspot
  have hnarrow := (narrow_and_fits_of_size hsize).1
  obtain ⟨-, hnodes, -⟩ := document_hasAt hbytes
  obtain ⟨-, hstrings, -, -⟩ := document_parts hash64 document
  have hend := membersEnd_eq hash64 (nodesStart document) 0 hnarrow.2
  have hinside := ((membersSpots_inside hash64 document 0).1 spot hspot).2
  refine ⟨membersSpots_held hnarrow.2 hnodes spot hspot, by omega, fun u hu => ?_⟩
  exact mem_documentStrings
    (List.mem_append_right _ (membersSpots_refs hnarrow.2 hspot hu))

theorem keptAt_root {root : UInt64} (h : IsRoot ⟨b, documentHeader hash64 document⟩ root) :
    KeptAt hash64 document b.bytes root := by
  obtain ⟨entry, ⟨i, hi, hat⟩, rfl⟩ := h
  have hnarrow := (narrow_and_fits_of_size hsize).1
  have hkept := membersSpots_kept hbytes hsize
  obtain ⟨hnodes, hstrings, hfooter, hend⟩ := document_parts hash64 document
  obtain ⟨htable, -, -⟩ := document_hasAt hbytes
  rw [membersSpots_offsets hash64 _ hnarrow.2] at htable
  replace hi : i < document.length := by
    rwa [documentHeader, toNat_ofNat_of_lt64 (by omega)] at hi
  obtain ⟨child, hchild, hoffset⟩ := entry_of_spots (document_placed hbytes hsize)
    (fun spot hspot => (hkept spot hspot).held) htable (by rwa [length_membersSpots]) hat
  exact ⟨child, hkept child ((sortedSpots_perm _ _).mem_iff.mp hchild), hoffset.symm⟩

/-- What is below a value is one behind it. -/
theorem KeptAt.child {offset child : UInt64} (h : KeptAt hash64 document b.bytes offset)
    (hchild : Child ⟨b, documentHeader hash64 document⟩ offset child) :
    KeptAt hash64 document b.bytes child ∧ offset.toNat < child.toNat := by
  have hplaced := document_placed hbytes hsize
  obtain ⟨spot, hkept, rfl⟩ := h
  obtain ⟨below, hbelow, rfl⟩ : ∃ below ∈ spot.children hash64,
      child = below.offset (nodesStart document) := by
    cases hchild with
    | entry hentry => exact hkept.child_of_entry hplaced hentry
    | element helement => exact hkept.child_of_element hplaced helement
  obtain ⟨hkept', hlt⟩ := hkept.child hplaced hbelow
  refine ⟨⟨below, hkept', rfl⟩, ?_⟩
  rw [hkept.held.toNat_offset hplaced, hkept'.held.toNat_offset hplaced]
  omega

/-- The graph of the file of a document is well formed. -/
theorem document_graphFormed : GraphFormed ⟨b, documentHeader hash64 document⟩ := by
  have hplaced := document_placed hbytes hsize
  constructor
  · intro root offset hroot hreach
    have hkept : KeptAt hash64 document b.bytes offset := by
      induction hreach with
      | refl => exact keptAt_root hbytes hsize hroot
      | tail _ hchild ih => exact (KeptAt.child hbytes hsize ih hchild).1
    obtain ⟨spot, hkept, rfl⟩ := hkept
    exact hkept.nodeFormed hplaced (document_strings_inside hsize b)
  · -- every step goes to a greater offset
    refine not_cyclic_of_climbs (KeptAt hash64 document b.bytes) UInt64.toNat ?_ ?_
    · exact fun root hroot => keptAt_root hbytes hsize hroot
    · exact fun offset child h hchild => KeptAt.child hbytes hsize h hchild

end

/-- In every file that the writer returns, what is reached from the root index is well formed, and
nothing is below itself: what the verifier does not look at is in order where the writer has
written it. -/
theorem written_graphFormed {env : Env} {options : Option WriterOptions} {ops : List Op}
    {w : Writer} (hrun : (Writer.create options).runs env ops = some w)
    (hclosed : w.currentScope = none) :
    ∃ document : Document, Builder.empty.run ops = some ⟨document, []⟩ ∧
      (documentSize env.hash64 document < 2 ^ 32 →
        w.Finalizes env document fun b => ∃ r, openBuffer true b = .ok r ∧ GraphFormed r) := by
  obtain ⟨document, hb, hwritten⟩ := runs_written hrun hclosed
  refine ⟨document, hb, fun hsize => (hwritten hsize).mono fun b hbytes => ?_⟩
  exact ⟨_, openBuffer_document hbytes, document_graphFormed hbytes hsize⟩

/-- A block with a string, an array and another block, next to a root without anything below. -/
theorem written_graphFormed_nested :
    ∃ w b w' r, (Writer.create none).runs (.succeeding fun key => UInt64.ofNat key.length)
        [.setUint64 (.data [0x62, 0x62]) 7, .beginBlock (.data [0x61]),
          .setString (.data [0x61]) [0x78], .beginArray (.data [0x62]), .appendNull,
          .appendUint64 3, .endArray, .beginBlock (.data []), .endBlock, .endBlock] = some w ∧
      finalizeToBuffer (.succeeding fun key => UInt64.ofNat key.length) w =
        .returned b.bytes w' ∧
      openBuffer true b = .ok r ∧ GraphFormed r := by
  obtain ⟨w, hrun, hclosed, hworkers⟩ : ∃ w, (Writer.create none).runs
      (.succeeding fun key => UInt64.ofNat key.length)
      [.setUint64 (.data [0x62, 0x62]) 7, .beginBlock (.data [0x61]),
        .setString (.data [0x61]) [0x78], .beginArray (.data [0x62]), .appendNull,
        .appendUint64 3, .endArray, .beginBlock (.data []), .endBlock, .endBlock] = some w ∧
        w.currentScope = none ∧ WorkersFit w.options.workerCount := ⟨_, rfl, rfl, by decide⟩
  obtain ⟨document, hb, hfile⟩ := written_graphFormed hrun hclosed
  cases hb
  obtain ⟨b, w', hreturned, r, hopened, hformed⟩ :=
    (hfile (by decide +kernel)).returned (Env.succeeding_succeeds _) hworkers
  exact ⟨w, b, w', r, hrun, hreturned, hopened, hformed⟩

/-! ## Written files in use -/

/-- The keys of a graph that is well formed are in the file, where the strings section is. -/
theorem GraphFormed.keysInside {r : Reader} (h : GraphFormed r)
    (hstrings : r.header.stringsOffset.toNat + r.header.stringsSize.toNat ≤ r.base.bytes.length)
    {root : UInt64} (hroot : IsRoot r root) : KeysInside r root := by
  rintro block entry hreach ⟨hkind, header, start, hbody, i, hi, hat⟩
  obtain ⟨kind, hkind', hformed⟩ := h.node root block hroot hreach
  cases hkind.symm.trans hkind'
  obtain ⟨count, size, entries, hlength, -, hheld, hkeys, -⟩ := hformed
  have htable := tableAt_of_blockBodyOffsets hbody
  have hcount := htable.length
  obtain ⟨hheader, hentries⟩ := hasAt_append.mp hheld
  rw [u32At_of_hasAt (hasAt_append.mp hheader).1, ← hlength] at hcount
  rw [List.length_append, length_le32, length_le32, ← htable.place] at hentries
  rw [← hcount] at hi
  -- the entry in the file is the one that the table lists at its place
  have hlisted := hasAt_entry hentries (List.getElem?_eq_getElem hi)
  have hentry : entry = entries[i] := (Entry.decode_at hat).symm.trans (Entry.decode_at hlisted)
  obtain ⟨-, hle⟩ := hkeys entry (hentry ▸ List.getElem_mem hi)
  exact .inr (hle.trans hstrings)

section

variable {hash64 : Bytes → UInt64} {document : Document} {b : Buffer}
  (hbytes : b.bytes = documentFile hash64 document)
  (hsize : documentSize hash64 document < 2 ^ 32)

include hbytes hsize

theorem document_exportable : Exportable ⟨b, documentHeader hash64 document⟩ := by
  obtain ⟨hnodes, hstrings, hfooter, hend⟩ := document_parts hash64 document
  have hstart := toNat_ofNat_of_lt64 (show stringsStart hash64 document < 2 ^ 64 by omega)
  have hstop := toNat_ofNat_of_lt64 (show footerStart hash64 document < 2 ^ 64 by omega)
  refine (document_rootsListed hbytes hsize).exportable (document_sealed hbytes).enveloped ?_
  simp only [documentHeader]
  rw [UInt64.le_iff_toNat_le, hstart, hstop]
  omega

/-- The keys of the blocks of a document are in its file. -/
theorem document_keysInside (root : UInt64)
    (hroot : IsRoot ⟨b, documentHeader hash64 document⟩ root) :
    KeysInside ⟨b, documentHeader hash64 document⟩ root := by
  obtain ⟨hnodes, hstrings, hfooter, hend⟩ := document_parts hash64 document
  have hlength := length_documentFile hash64 document
  have hstart := toNat_ofNat_of_lt64 (show stringsStart hash64 document < 2 ^ 64 by omega)
  have hroom := toNat_ofNat_of_lt64
    (show (poolBytes (documentStrings hash64 document)).length < 2 ^ 64 by omega)
  refine (document_graphFormed hbytes hsize).keysInside ?_ hroot
  simp only [documentHeader]
  rw [hstart, hroom, hbytes, hlength]
  omega

end

/-- An export stops nowhere but at a read outside of the file or for want of levels. -/
theorem exportAs_returns {σ : Type} {core : Core σ} {lib : LibYaml σ}
    {options : Option ExportOptions} {r : Reader} {world : σ} {format : ExportFormat} {levels : Nat}
    (hinside : (exportAs core lib options r world format levels).1 ≠ .error .fault)
    (hends : (exportAs core lib options r world format levels).1 ≠ .error .overflow) :
    ∃ done, (exportAs core lib options r world format levels).1 = .ok done := by
  cases hresult : (exportAs core lib options r world format levels).1 with
  | ok done => exact ⟨done, rfl⟩
  | error stop =>
    have hnot : stop ≠ .failed := by
      cases format with
      | json => exact (exportEnd_eq_error hresult).1
      | yaml => exact (exportEnd_eq_error hresult).1
      | ini => exact (exportEnd_eq_error hresult).1
    cases stop with
    | failed => exact absurd rfl hnot
    | fault => exact absurd hresult hinside
    | overflow => exact absurd hresult hends

/-- A file that the writer returns is safe to use: no run of a client reads outside of it, and every
export returns without one, in calls that are nested no more deeply than the file has bytes. For
YAML the file has to be short, since a length is taken as an `int`. -/
theorem written_served {env : Env} {options : Option WriterOptions} {ops : List Op}
    {w : Writer} (hrun : (Writer.create options).runs env ops = some w)
    (hclosed : w.currentScope = none) :
    ∃ document : Document, Builder.empty.run ops = some ⟨document, []⟩ ∧
      (documentSize env.hash64 document < 2 ^ 32 →
        w.Finalizes env document fun b => ∃ r, openBuffer true b = .ok r ∧
          r.RunsSafe env.hash64 ∧
          ∀ {σ : Type} (core : Core σ), Sorts core.sortWithCompare →
            ∀ lib options world format levels, b.bytes.length < levels →
              (format = .yaml → core.Fits ∧ b.bytes.length < 2 ^ 31) →
                ∃ done, (exportAs core lib options r world format levels).1 = .ok done) := by
  obtain ⟨document, hb, hwritten⟩ := runs_written hrun hclosed
  refine ⟨document, hb, fun hsize => (hwritten hsize).mono fun b hbytes => ?_⟩
  have hexportable := document_exportable hbytes hsize
  have hlayout := hexportable.layout
  refine ⟨_, openBuffer_document hbytes, ?_, ?_⟩
  · intro calls hcalls
    exact answers_safe hlayout hexportable.confined.2 (hexportable.confined.namedInside hlayout)
      hcalls Held.grounded_nil
  · intro σ core hsort lib options world format levels hlarge hyaml
    refine exportAs_returns ?_ ?_
    · exact exportAs_inside hexportable (document_keysInside hbytes hsize) hsort options world lib
        format hyaml levels
    · exact exportAs_ends hsort lib options _ world (document_graphFormed hbytes hsize).acyclic
        format hlarge

/-- A block with a string, an array and another block, in runs of a client and in all formats. -/
theorem written_served_nested :
    ∃ w b w' r, (Writer.create none).runs (.succeeding fun key => UInt64.ofNat key.length)
        [.setUint64 (.data [0x62, 0x62]) 7, .beginBlock (.data [0x61]),
          .setString (.data [0x61]) [0x78], .beginArray (.data [0x62]), .appendNull,
          .appendUint64 3, .endArray, .beginBlock (.data []), .endBlock, .endBlock] = some w ∧
      finalizeToBuffer (.succeeding fun key => UInt64.ofNat key.length) w =
        .returned b.bytes w' ∧
      openBuffer true b = .ok r ∧ r.RunsSafe (fun key => UInt64.ofNat key.length) ∧
      ∀ lib options format, ∃ done,
        (exportAs plainCore.fitted lib options r [] format (b.bytes.length + 1)).1 = .ok done := by
  obtain ⟨w, hrun, hclosed, hworkers⟩ : ∃ w, (Writer.create none).runs
      (.succeeding fun key => UInt64.ofNat key.length)
      [.setUint64 (.data [0x62, 0x62]) 7, .beginBlock (.data [0x61]),
        .setString (.data [0x61]) [0x78], .beginArray (.data [0x62]), .appendNull,
        .appendUint64 3, .endArray, .beginBlock (.data []), .endBlock, .endBlock] = some w ∧
        w.currentScope = none ∧ WorkersFit w.options.workerCount := ⟨_, rfl, rfl, by decide⟩
  obtain ⟨document, hb, hfile⟩ := written_served hrun hclosed
  obtain ⟨document', hb', hwritten⟩ := runs_written hrun hclosed
  cases hb
  cases hb'
  obtain ⟨b, w', hreturned, r, hopened, hsafe, hexports⟩ :=
    (hfile (by decide +kernel)).returned (Env.succeeding_succeeds _) hworkers
  have hbytes := (hwritten (by decide +kernel)).2 b w' hreturned
  have hshort : b.bytes.length < 2 ^ 31 := by
    rw [hbytes, length_documentFile]
    decide +kernel
  refine ⟨w, b, w', r, hrun, hreturned, hopened, hsafe, ?_⟩
  intro lib options format
  exact hexports plainCore.fitted sorts_insertionSortWith lib options [] format _
    (Nat.lt_succ_self _) fun _ => ⟨plainCore.fitted_fits, hshort⟩

end Hrbl
