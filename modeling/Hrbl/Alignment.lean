import Hrbl.Fixups
import Hrbl.Placement
import Hrbl.Lib.Nesting

/-!
# Where the nodes of a file are

The nodes of a file are found from the root index on, by the offsets in entries and elements. In
the file of a document every body comes right after its kind byte, at a multiple of what its kind
asks for, and no two nodes share a byte.
-/

namespace Hrbl

open Lib NodeTree

/-! ## Nodes of a file -/

/-- `bc_hrbl_body_offset_from_kind`: where the body of a node is, from where its kind byte is. -/
def bodyPlace (offset : Nat) (kind : Kind) : Nat :=
  (alignUp (UInt64.ofNat offset + 1) (UInt64.ofNat kind.bodyAlign)).toNat

/-- The offset in the entry or the element for a child. -/
def childAt (file : Bytes) (offset i : Nat) : Option Nat :=
  match file[offset]?.bind Kind.ofByte with
  | some .block =>
    let body := bodyPlace offset .block
    if i < (u32At file body).toNat then
      some (Entry.decode (file.drop (body + 8 + i * 24))).valueOffset.toNat
    else none
  | some .array =>
    let body := bodyPlace offset .array
    if i < (u32At file body).toNat then some (u64At file (body + 8 + i * 8)).toNat else none
  | _ => none

/-- The node below another one. -/
def nodeUnder (file : Bytes) : Nat → List Nat → Option Nat
  | offset, [] => some offset
  | offset, i :: path => (childAt file offset i).bind fun child => nodeUnder file child path

/-- The node below the root, of which the first place is one in the root index. -/
def nodeAt (file : Bytes) : List Nat → Option Nat
  | [] => none
  | i :: path =>
    if i < (Header.decode file).rootCount.toNat then
      nodeUnder file (Entry.decode (file.drop (128 + i * 24))).valueOffset.toNat path
    else none

/-! ## Values of a document -/

/-- A child of a value. -/
def Value.nth : Value → Nat → Option Value
  | .scalar _, _ => none
  | .block members, i => members[i]?.map Prod.snd
  | .array elements, i => elements[i]?

/-- The value below another one. -/
def Value.under : Value → List Nat → Option Value
  | value, [] => some value
  | value, i :: path => (value.nth i).bind fun child => Value.under child path

def Document.under (document : Document) : List Nat → Option Value
  | [] => none
  | i :: path => document[i]?.bind fun m => m.2.under path

/-- How many bytes of the nodes are a value's own: the kind byte, and its body or its header and
table. -/
def Value.width : Value → Nat
  | .scalar s => 1 + s.kind.bodySize
  | .block members => 9 + members.length * 24
  | .array elements => 9 + elements.length * 8

theorem Value.width_pos (value : Value) : 0 < value.width := by
  cases value with
  | scalar s => exact Nat.add_pos_left Nat.zero_lt_one _
  | block members => exact Nat.add_pos_left (Nat.succ_pos 8) _
  | array elements => exact Nat.add_pos_left (Nat.succ_pos 8) _

/-- The size of what a table holds for each child. -/
def Value.stride : Value → Nat
  | .scalar _ => 0
  | .block _ => 24
  | .array _ => 8

/-- A value at an offset of a file. The body comes right after the kind byte, where the reader
looks for it; it is aligned, and so are the entries or elements behind a header. -/
structure NodeLies (file : Bytes) (value : Value) (offset : Nat) : Prop where
  kind : file[offset]? = some value.kind.byte
  body : bodyPlace offset value.kind = offset + 1
  aligned : value.kind.bodyAlign ∣ offset + 1
  table : ∀ i, value.kind = .block ∨ value.kind = .array → 8 ∣ offset + 9 + i * value.stride
  inside : (Header.decode file).nodesOffset.toNat ≤ offset ∧ offset + value.width ≤
    (Header.decode file).nodesOffset.toNat + (Header.decode file).nodesSize.toNat

/-- The nodes of a file are those of the document, and no two of them share a byte. -/
structure NodesLie (file : Bytes) (document : Document) : Prop where
  node : ∀ path value, document.under path = some value →
    ∃ offset, nodeAt file path = some offset ∧ NodeLies file value offset
  absent : ∀ path, document.under path = none → nodeAt file path = none
  apart : ∀ path path' value value' offset offset', path ≠ path' →
    document.under path = some value → document.under path' = some value' →
    nodeAt file path = some offset → nodeAt file path' = some offset' →
    offset + value.width ≤ offset' ∨ offset' + value'.width ≤ offset

/-! ## Spots -/

/-- A value where it is laid out. -/
structure Spot where
  key : Bytes
  pos : Nat
  value : Value

/-- Members one after the other. -/
def membersSpots (pos : Nat) : List (Bytes × Value) → List Spot
  | [] => []
  | (key, value) :: members => ⟨key, pos, value⟩ :: membersSpots (valueEnd pos value) members

/-- Spots in the order of the entries of a block. -/
def sortedSpots (hash64 : Bytes → UInt64) (spots : List Spot) : List Spot :=
  stableSort (fun spot => (hash64 spot.key).toNat) spots

/-- The children of a value, in the order of its table. -/
def Spot.children (hash64 : Bytes → UInt64) (spot : Spot) : List Spot :=
  match spot.value with
  | .scalar _ => []
  | .block members =>
    sortedSpots hash64 (membersSpots (blockStart spot.pos members.length) members)
  | .array elements =>
    membersSpots (arrayStart spot.pos elements.length) (elements.map fun e => ([], e))

/-- Where the kind byte is. -/
def Spot.kindPos (spot : Spot) : Nat := kindOffset spot.pos spot.value.bodyAlign

/-- The layout of the nodes. -/
def nodesNesting (hash64 : Bytes → UInt64) : Nesting Spot where
  children := Spot.children hash64
  start := Spot.pos
  stop spot := valueEnd spot.pos spot.value
  first := Spot.kindPos
  last spot := spot.kindPos + spot.value.width

theorem membersEnd_elements (elements : List Value) (pos : Nat) :
    membersEnd pos (elements.map fun e => ([], e)) = elementsEnd pos elements := by
  induction elements generalizing pos with
  | nil => rfl
  | cons e elements ih => exact ih _

mutual

theorem le_valueEnd : ∀ (value : Value) (pos : Nat), pos ≤ valueEnd pos value
  | .scalar s, pos => by
    have hle := lt_kindOffset_add s.kind.bodyAlign_pos pos
    rw [valueEnd]
    omega
  | .block members, pos => by
    have hle := lt_kindOffset_add (show 0 < 8 by omega) pos
    have hend := le_membersEnd members (blockStart pos (childCountOf members.length))
    rw [valueEnd]
    rw [blockStart] at hend ⊢
    omega
  | .array elements, pos => by
    have hle := lt_kindOffset_add (show 0 < 8 by omega) pos
    have hend := le_elementsEnd elements (arrayStart pos (childCountOf elements.length))
    rw [valueEnd]
    rw [arrayStart] at hend ⊢
    omega

theorem le_membersEnd : ∀ (members : List (Bytes × Value)) (pos : Nat),
    pos ≤ membersEnd pos members
  | [], _ => Nat.le_refl _
  | (_, value) :: members, pos => by
    have hvalue := le_valueEnd value pos
    have hmembers := le_membersEnd members (valueEnd pos value)
    rw [membersEnd]
    omega

theorem le_elementsEnd : ∀ (elements : List Value) (pos : Nat), pos ≤ elementsEnd pos elements
  | [], _ => Nat.le_refl _
  | value :: elements, pos => by
    have hvalue := le_valueEnd value pos
    have helements := le_elementsEnd elements (valueEnd pos value)
    rw [elementsEnd]
    omega

end

/-- Members one after the other are inside, and apart. -/
theorem membersSpots_inside (hash64 : Bytes → UInt64) (members : List (Bytes × Value))
    (pos : Nat) :
    (∀ spot ∈ membersSpots pos members,
      pos ≤ spot.pos ∧ valueEnd spot.pos spot.value ≤ membersEnd pos members) ∧
      (membersSpots pos members).Pairwise (nodesNesting hash64).Apart := by
  induction members generalizing pos with
  | nil => exact ⟨fun _ h => absurd h List.not_mem_nil, .nil⟩
  | cons m members ih =>
    obtain ⟨key, value⟩ := m
    obtain ⟨hinside, hapart⟩ := ih (valueEnd pos value)
    have hle := le_valueEnd value pos
    have hend := le_membersEnd members (valueEnd pos value)
    rw [membersSpots, membersEnd]
    constructor
    · intro spot hspot
      rcases List.mem_cons.mp hspot with rfl | hspot
      · exact ⟨Nat.le_refl _, hend⟩
      · obtain ⟨hpos, hstop⟩ := hinside spot hspot
        exact ⟨hle.trans hpos, hstop⟩
    · exact List.pairwise_cons.mpr ⟨fun spot hspot => .inl (hinside spot hspot).1, hapart⟩

theorem sortedSpots_perm (hash64 : Bytes → UInt64) (spots : List Spot) :
    (sortedSpots hash64 spots).Perm spots := stableSort_perm _ _

theorem mem_membersSpots {members : List (Bytes × Value)} (h : membersNarrow members) {pos : Nat}
    {spot : Spot} (hspot : spot ∈ membersSpots pos members) : spot.value.Narrow := by
  induction members generalizing pos with
  | nil => cases hspot
  | cons m members ih =>
    obtain ⟨hvalue, hmembers⟩ := h
    rcases List.mem_cons.mp hspot with rfl | hspot
    · exact hvalue
    · exact ih hmembers hspot

/-- The layout is tight where counts are narrow. -/
theorem nodesNesting_tight (hash64 : Bytes → UInt64) (spot : Spot) (hnarrow : spot.value.Narrow) :
    (nodesNesting hash64).Tight spot ∧
      ∀ child ∈ (nodesNesting hash64).children spot, child.value.Narrow := by
  obtain ⟨key, pos, value⟩ := spot
  have hstart := lt_kindOffset_add value.bodyAlign_pos pos
  cases value with
  | scalar s =>
    refine ⟨⟨hstart, Nat.le_add_right _ _, ?_, ?_, ?_, .nil⟩, ?_⟩
    · change kindOffset pos s.kind.bodyAlign + (1 + s.kind.bodySize) ≤ _
      exact Nat.le_of_eq (Nat.add_assoc _ _ _).symm
    · exact fun _ h => absurd h List.not_mem_nil
    · exact fun _ h => absurd h List.not_mem_nil
    · exact fun _ h => absurd h List.not_mem_nil
  | block members =>
    have hlast : kindOffset pos 8 + (9 + members.length * 24) = blockStart pos members.length :=
      (Nat.add_assoc _ _ _).symm
    have hstop : valueEnd pos (.block members) =
        membersEnd (blockStart pos members.length) members := by
      rw [valueEnd, childCountOf_eq hnarrow.1]
    have hle := le_membersEnd members (blockStart pos members.length)
    obtain ⟨hinside, hapart⟩ :=
      membersSpots_inside hash64 members (blockStart pos members.length)
    have hperm := sortedSpots_perm hash64 (membersSpots (blockStart pos members.length) members)
    refine ⟨⟨hstart, Nat.le_add_right _ _, ?_, ?_, ?_, ?_⟩, ?_⟩
    · change kindOffset pos 8 + (9 + members.length * 24) ≤ valueEnd pos (.block members)
      omega
    · intro child hchild
      have hpos := (hinside child (hperm.mem_iff.mp hchild)).1
      exact (Nat.le_of_eq hlast).trans hpos
    · intro child hchild
      exact (hinside child (hperm.mem_iff.mp hchild)).2.trans (Nat.le_of_eq hstop.symm)
    · exact hperm.symm.pairwise hapart fun h => h.symm
    · intro child hchild
      exact mem_membersSpots hnarrow.2 (hperm.mem_iff.mp hchild)
  | array elements =>
    have hlast : kindOffset pos 8 + (9 + elements.length * 8) = arrayStart pos elements.length :=
      (Nat.add_assoc _ _ _).symm
    have hstop : valueEnd pos (.array elements) = membersEnd (arrayStart pos elements.length)
        (elements.map fun e => ([], e)) := by
      rw [valueEnd, childCountOf_eq hnarrow.1, membersEnd_elements]
    have hle := le_membersEnd (elements.map fun e => (([] : Bytes), e))
      (arrayStart pos elements.length)
    obtain ⟨hinside, hapart⟩ := membersSpots_inside hash64
      (elements.map fun e => (([] : Bytes), e)) (arrayStart pos elements.length)
    refine ⟨⟨hstart, Nat.le_add_right _ _, ?_, ?_, ?_, hapart⟩, ?_⟩
    · change kindOffset pos 8 + (9 + elements.length * 8) ≤ valueEnd pos (.array elements)
      omega
    · intro child hchild
      exact (Nat.le_of_eq hlast).trans (hinside child hchild).1
    · intro child hchild
      exact (hinside child hchild).2.trans (Nat.le_of_eq hstop.symm)
    · intro child hchild
      exact mem_membersSpots (membersNarrow_elements hnarrow.2) hchild

/-! ## Spots of a file -/

theorem bodyPlace_eq {offset : Nat} {kind : Kind} (haligned : kind.bodyAlign ∣ offset + 1)
    (hsmall : offset + 1 < 2 ^ 64) : bodyPlace offset kind = offset + 1 := by
  obtain ⟨k, hk, halign⟩ := kind.bodyAlign_eq
  rw [halign] at haligned
  have hpow : 2 ^ k ≤ 8 := Nat.pow_le_pow_right (n := 2) (by omega) hk
  have hone : (1 : UInt64).toNat = 1 := rfl
  have hplace : (UInt64.ofNat offset + 1).toNat = offset + 1 := by
    rw [UInt64.toNat_add, toNat_ofNat_of_lt64 (by omega), hone]
    omega
  have hmask : (UInt64.ofNat kind.bodyAlign).toNat = 2 ^ k := by
    rw [toNat_ofNat_of_lt64 (by omega), halign]
  -- a multiple below 2^64 leaves room for one more
  have hroom : offset + 1 + (2 ^ k - 1) < 2 ^ 64 := by
    obtain ⟨m, hm⟩ := haligned
    have hsplit : 2 ^ k * 2 ^ (64 - k) = 2 ^ 64 := by
      rw [← Nat.pow_add, Nat.add_sub_cancel' (by omega)]
    have hlt : m < 2 ^ (64 - k) := by
      by_contra hge
      have hle := Nat.mul_le_mul_left (2 ^ k) (Nat.le_of_not_lt hge)
      omega
    have hle := Nat.mul_le_mul_left (2 ^ k) hlt
    rw [Nat.mul_succ] at hle
    have hpos := Nat.two_pow_pos k
    omega
  rw [bodyPlace, toNat_alignUp (by omega) hmask (by rwa [hplace]), hplace,
    alignUpNat_of_dvd (Nat.two_pow_pos k) haligned]

section

variable {hash64 : Bytes → UInt64} {base : Nat} {file : Bytes} {addr : Bytes → UInt32}

/-- A spot with its image in the file. -/
structure Spot.Held (hash64 : Bytes → UInt64) (base : Nat) (file : Bytes) (addr : Bytes → UInt32)
    (spot : Spot) : Prop where
  narrow : spot.value.Narrow
  image : HasAt file (base + spot.pos) (render addr (valueImage hash64 base spot.pos spot.value))

theorem membersSpots_offsets (hash64 : Bytes → UInt64) (base : Nat)
    {members : List (Bytes × Value)} (hnarrow : membersNarrow members) (pos : Nat) :
    (membersImage hash64 base pos members).1 =
      (membersSpots pos members).map fun spot => (spot.key, base + spot.kindPos) := by
  induction members generalizing pos with
  | nil => rfl
  | cons m members ih =>
    obtain ⟨key, value⟩ := m
    rw [membersImage_cons, membersSpots, List.map_cons, valueEnd_eq hash64 base pos hnarrow.1,
      ih hnarrow.2]
    rfl

theorem membersSpots_inFileOrder (hash64 : Bytes → UInt64) (members : List (Bytes × Value))
    (pos : Nat) : membersInFileOrder hash64 members =
      (membersSpots pos members).map fun spot => (spot.key, spot.value.inFileOrder hash64) := by
  induction members generalizing pos with
  | nil => rfl
  | cons m members ih =>
    obtain ⟨key, value⟩ := m
    rw [membersInFileOrder, membersSpots, List.map_cons, ih (valueEnd pos value)]

theorem elementsInFileOrder_eq (hash64 : Bytes → UInt64) (elements : List Value) :
    elementsInFileOrder hash64 elements =
      (membersInFileOrder hash64 (elements.map fun e => ([], e))).map Prod.snd := by
  induction elements with
  | nil => rfl
  | cons e elements ih =>
    rw [elementsInFileOrder, ih, List.map_cons, membersInFileOrder, List.map_cons]

theorem length_membersSpots (members : List (Bytes × Value)) (pos : Nat) :
    (membersSpots pos members).length = members.length := by
  induction members generalizing pos with
  | nil => rfl
  | cons m members ih => rw [membersSpots, List.length_cons, List.length_cons, ih]

/-- The spots of members whose images are in the file. -/
theorem membersSpots_held {members : List (Bytes × Value)} (hnarrow : membersNarrow members)
    {pos : Nat}
    (h : HasAt file (base + pos) (render addr (membersImage hash64 base pos members).2)) :
    ∀ spot ∈ membersSpots pos members, spot.Held hash64 base file addr := by
  induction members generalizing pos with
  | nil => exact fun _ hspot => absurd hspot List.not_mem_nil
  | cons m members ih =>
    obtain ⟨key, value⟩ := m
    rw [membersImage_cons, render_append, hasAt_append, length_render, Nat.add_assoc,
      valueEnd_eq hash64 base pos hnarrow.1] at h
    intro spot hspot
    rcases List.mem_cons.mp hspot with rfl | hspot
    · exact ⟨hnarrow.1, h.1⟩
    · exact ih hnarrow.2 h.2 spot hspot

/-- The parts of a block that is laid out: header and table, and the members behind them. -/
theorem hasAt_blockImage {pos : Nat} {members : List (Bytes × Value)}
    (h : HasAt file (base + pos) (render addr (valueImage hash64 base pos (.block members)))) :
    HasAt file (base + kindOffset pos 8 + 1)
        (le32 (UInt32.ofNat members.length) ++ le32 (UInt32.ofNat (members.length * 24)) ++
          render addr (entriesImage hash64
            (membersImage hash64 base (blockStart pos members.length) members).1)) ∧
      HasAt file (base + blockStart pos members.length)
        (render addr (membersImage hash64 base (blockStart pos members.length) members).2) := by
  rw [valueImage_block, render, render_append, List.append_assoc, List.append_assoc] at h
  obtain ⟨-, hbody⟩ := hasAt_kindImage (by omega) h
  rw [← List.append_assoc, ← List.append_assoc] at hbody
  obtain ⟨htable, hmembers⟩ := hasAt_append.mp hbody
  rw [List.length_append, List.length_append, length_le32, length_le32,
    length_entriesImage] at hmembers
  have hstart : base + kindOffset pos 8 + 1 + (4 + 4 + members.length * 24) =
      base + blockStart pos members.length := by
    rw [blockStart]
    omega
  rw [hstart] at hmembers
  exact ⟨htable, hmembers⟩

/-- The parts of an array that is laid out. -/
theorem hasAt_arrayImage {pos : Nat} {elements : List Value}
    (h : HasAt file (base + pos) (render addr (valueImage hash64 base pos (.array elements)))) :
    HasAt file (base + kindOffset pos 8 + 1)
        (le32 (UInt32.ofNat elements.length) ++ le32 (UInt32.ofNat (elements.length * 8)) ++
          (elementsImage hash64 base (arrayStart pos elements.length) elements).1.flatMap
            fun offset => le64 (UInt64.ofNat offset)) ∧
      HasAt file (base + arrayStart pos elements.length)
        (render addr (elementsImage hash64 base (arrayStart pos elements.length) elements).2) := by
  rw [valueImage_array, render, List.append_assoc, List.append_assoc, List.append_assoc] at h
  obtain ⟨-, hbody⟩ := hasAt_kindImage (by omega) h
  rw [← List.append_assoc, ← List.append_assoc] at hbody
  obtain ⟨htable, helements⟩ := hasAt_append.mp hbody
  rw [List.length_append, List.length_append, length_le32, length_le32, length_flatMap_le64,
    length_elementsImage] at helements
  have hstart : base + kindOffset pos 8 + 1 + (4 + 4 + elements.length * 8) =
      base + arrayStart pos elements.length := by
    rw [arrayStart]
    omega
  rw [hstart] at helements
  exact ⟨htable, helements⟩

/-- Every image starts with the kind byte of its value. -/
theorem Spot.Held.kindByte {spot : Spot} (h : spot.Held hash64 base file addr) :
    HasAt file (base + spot.kindPos) [spot.value.kind.byte] := by
  obtain ⟨key, pos, value⟩ := spot
  have hsplit : ∃ rest, render addr (valueImage hash64 base pos value) =
      kindImage pos value.kind value.bodyAlign ++ rest := by
    cases value with
    | scalar s => exact ⟨_, rfl⟩
    | block members =>
      rw [valueImage_block, render, List.append_assoc, List.append_assoc]
      exact ⟨_, rfl⟩
    | array elements =>
      rw [valueImage_array, render, List.append_assoc, List.append_assoc, List.append_assoc]
      exact ⟨_, rfl⟩
  obtain ⟨rest, hrest⟩ := hsplit
  have himage := h.image
  rw [hrest] at himage
  exact (hasAt_kindImage value.bodyAlign_pos himage).1

theorem Spot.Held.kind {spot : Spot} (h : spot.Held hash64 base file addr) :
    file[base + spot.kindPos]? = some spot.value.kind.byte := h.kindByte.getElem?

theorem Spot.dvd_body (haligned : 8 ∣ base) (spot : Spot) :
    spot.value.kind.bodyAlign ∣ base + spot.kindPos + 1 := by
  have hbody : spot.value.kind.bodyAlign = spot.value.bodyAlign := by
    cases spot.value <;> rfl
  have hkind : spot.kindPos + 1 = alignUpNat (spot.pos + 1) spot.value.bodyAlign := by
    have hle := le_alignUpNat spot.value.bodyAlign_pos (spot.pos + 1)
    rw [Spot.kindPos, kindOffset]
    omega
  obtain ⟨k, hk, halign⟩ := spot.value.kind.bodyAlign_eq
  have hbase : spot.value.kind.bodyAlign ∣ base := by
    rw [halign]
    exact (Nat.pow_dvd_pow 2 hk).trans haligned
  rw [Nat.add_assoc, hkind]
  exact Nat.dvd_add hbase (hbody ▸ dvd_alignUpNat _ _)

theorem Spot.Held.lt_length {spot : Spot} (h : spot.Held hash64 base file addr) :
    base + spot.kindPos < file.length := (List.getElem?_eq_some_iff.mp h.kind).1

theorem Entry.decode_at {offset : Nat} {entry : Entry} (h : HasAt file offset entry.encode) :
    Entry.decode (file.drop offset) = entry := by
  refine Entry.decode_of_hasAt ?_
  rw [HasAt, List.drop_zero]
  exact h

/-- The entries of sorted spots lead to them. -/
theorem entry_leads {spots : List Spot} {table i : Nat} (hlt : file.length < 2 ^ 64)
    (hheld : ∀ spot ∈ spots, spot.Held hash64 base file addr)
    (h : HasAt file table (render addr (entriesImage hash64
      (spots.map fun spot => (spot.key, base + spot.kindPos))))) (hi : i < spots.length) :
    some (Entry.decode (file.drop (table + i * 24))).valueOffset.toNat =
      (sortedSpots hash64 spots)[i]?.map fun child => base + child.kindPos := by
  have hperm := sortedSpots_perm hash64 spots
  obtain ⟨child, hchild⟩ : ∃ child, (sortedSpots hash64 spots)[i]? = some child :=
    ⟨_, List.getElem?_eq_getElem (hperm.length_eq ▸ hi)⟩
  rw [render_entriesImage, stableSort_map] at h
  have hentry : (((stableSort (fun spot : Spot => (hash64 spot.key).toNat) spots).map
      fun spot => (spot.key, base + spot.kindPos)).map (entryWith hash64 addr))[i]? =
        some (entryWith hash64 addr (child.key, base + child.kindPos)) := by
    rw [List.getElem?_map, List.getElem?_map]
    exact congrArg (fun o => Option.map _ (Option.map _ o)) hchild
  have hat := hasAt_entry h hentry
  have hinside := (hheld child (hperm.mem_iff.mp (List.mem_of_getElem? hchild))).lt_length
  rw [hchild, Option.map_some, Entry.decode_at hat]
  exact congrArg some (toNat_ofNat_of_lt64 (by omega))

theorem Spot.Held.childAt_block (haligned : 8 ∣ base) (hsmall : file.length < 2 ^ 64)
    {key : Bytes} {pos : Nat} {members : List (Bytes × Value)}
    (h : Spot.Held hash64 base file addr ⟨key, pos, .block members⟩) (i : Nat) :
    childAt file (base + kindOffset pos 8) i =
        (Spot.children hash64 ⟨key, pos, .block members⟩)[i]?.map
          (fun child => base + child.kindPos) ∧
      ∀ child ∈ Spot.children hash64 ⟨key, pos, .block members⟩,
        child.Held hash64 base file addr := by
  have hinside := h.lt_length
  have hkind := h.kind
  have hdvd := Spot.dvd_body haligned ⟨key, pos, .block members⟩
  have himage := h.image
  obtain ⟨hcount, hnarrow⟩ := h.narrow
  change base + kindOffset pos 8 < _ at hinside
  change file[base + kindOffset pos 8]? = some Kind.block.byte at hkind
  obtain ⟨hbody, hmembers⟩ := hasAt_blockImage himage
  obtain ⟨hheader, htable⟩ := hasAt_append.mp hbody
  obtain ⟨hlength, -⟩ := hasAt_append.mp hheader
  rw [List.length_append, length_le32, length_le32,
    membersSpots_offsets hash64 base hnarrow] at htable
  have hheld := membersSpots_held hnarrow hmembers
  have hperm := sortedSpots_perm hash64 (membersSpots (blockStart pos members.length) members)
  refine ⟨?_, fun child hchild => hheld child (hperm.mem_iff.mp hchild)⟩
  have hbodyPlace : bodyPlace (base + kindOffset pos 8) .block = base + kindOffset pos 8 + 1 :=
    bodyPlace_eq hdvd (by omega)
  rw [childAt, hkind, Option.bind_some, Kind.ofByte_byte]
  dsimp only
  rw [hbodyPlace]
  change (if i < (u32At file (base + kindOffset pos 8 + 1)).toNat then _ else _) = _
  rw [u32At_of_hasAt hlength, toNat_ofNat_of_lt hcount]
  by_cases hi : i < members.length
  · rw [if_pos hi]
    exact entry_leads (by omega) hheld htable (by rwa [length_membersSpots])
  · rw [if_neg hi, List.getElem?_eq_none]
    · rfl
    · change (sortedSpots hash64 (membersSpots (blockStart pos members.length) members)).length ≤ i
      rw [hperm.length_eq, length_membersSpots]
      omega

theorem Spot.Held.childAt_array (haligned : 8 ∣ base) (hsmall : file.length < 2 ^ 64)
    {key : Bytes} {pos : Nat} {elements : List Value}
    (h : Spot.Held hash64 base file addr ⟨key, pos, .array elements⟩) (i : Nat) :
    childAt file (base + kindOffset pos 8) i =
        (Spot.children hash64 ⟨key, pos, .array elements⟩)[i]?.map
          (fun child => base + child.kindPos) ∧
      ∀ child ∈ Spot.children hash64 ⟨key, pos, .array elements⟩,
        child.Held hash64 base file addr := by
  have hinside := h.lt_length
  have hkind := h.kind
  have hdvd := Spot.dvd_body haligned ⟨key, pos, .array elements⟩
  have himage := h.image
  obtain ⟨hcount, hnarrow⟩ := h.narrow
  have hnarrow := membersNarrow_elements hnarrow
  change base + kindOffset pos 8 < _ at hinside
  change file[base + kindOffset pos 8]? = some Kind.array.byte at hkind
  obtain ⟨hbody, helements⟩ := hasAt_arrayImage himage
  obtain ⟨hheader, htable⟩ := hasAt_append.mp hbody
  obtain ⟨hlength, -⟩ := hasAt_append.mp hheader
  rw [List.length_append, length_le32, length_le32] at htable
  rw [elementsImage_eq] at htable helements
  dsimp only at htable helements
  rw [membersSpots_offsets hash64 base hnarrow, List.map_map] at htable
  have hheld := membersSpots_held hnarrow helements
  refine ⟨?_, hheld⟩
  have hbodyPlace : bodyPlace (base + kindOffset pos 8) .array = base + kindOffset pos 8 + 1 :=
    bodyPlace_eq hdvd (by omega)
  rw [childAt, hkind, Option.bind_some, Kind.ofByte_byte]
  dsimp only
  rw [hbodyPlace]
  change (if i < (u32At file (base + kindOffset pos 8 + 1)).toNat then
    some (u64At file (base + kindOffset pos 8 + 1 + 8 + i * 8)).toNat else none) =
      (membersSpots (arrayStart pos elements.length) (elements.map fun e => ([], e)))[i]?.map _
  rw [u32At_of_hasAt hlength, toNat_ofNat_of_lt hcount]
  have hspots := length_membersSpots (elements.map fun e => (([] : Bytes), e))
    (arrayStart pos elements.length)
  rw [List.length_map] at hspots
  by_cases hi : i < elements.length
  · obtain ⟨child, hchild⟩ : ∃ child, (membersSpots (arrayStart pos elements.length)
        (elements.map fun e => ([], e)))[i]? = some child :=
      ⟨_, List.getElem?_eq_getElem (by rwa [hspots])⟩
    have hat := htable.flatMap (fun _ => length_le64 _) (i := i) (x := base + child.kindPos) (by
      rw [List.getElem?_map, hchild]
      rfl)
    have hlt := (hheld child (List.mem_of_getElem? hchild)).lt_length
    rw [if_pos hi, hchild, u64At_of_hasAt hat, toNat_ofNat_of_lt64 (by omega), Option.map_some]
  · rw [if_neg hi, List.getElem?_eq_none (by omega)]
    rfl

/-- The offsets in the table of a node lead to its children. -/
theorem Spot.Held.childAt (haligned : 8 ∣ base) (hsmall : file.length < 2 ^ 64) {spot : Spot}
    (h : spot.Held hash64 base file addr) (i : Nat) :
    Hrbl.childAt file (base + spot.kindPos) i =
        (spot.children hash64)[i]?.map (fun child => base + child.kindPos) ∧
      ∀ child ∈ spot.children hash64, child.Held hash64 base file addr := by
  obtain ⟨key, pos, value⟩ := spot
  cases value with
  | scalar s =>
    refine ⟨?_, fun _ hchild => absurd hchild List.not_mem_nil⟩
    rw [Hrbl.childAt, h.kind, Option.bind_some, Kind.ofByte_byte]
    cases s with
    | bool value => cases value <;> rfl
    | _ => rfl
  | block members => exact childAt_block haligned hsmall h i
  | array elements => exact childAt_array haligned hsmall h i

/-! ## Paths -/

theorem Spot.nth_inFileOrder (spot : Spot) (i : Nat) :
    (spot.value.inFileOrder hash64).nth i =
      (spot.children hash64)[i]?.map fun child => child.value.inFileOrder hash64 := by
  obtain ⟨key, pos, value⟩ := spot
  cases value with
  | scalar s =>
    rw [Value.inFileOrder]
    rfl
  | block members =>
    rw [Value.inFileOrder, Value.nth,
      membersSpots_inFileOrder hash64 members (blockStart pos members.length), stableSort_map,
      List.getElem?_map, Option.map_map]
    rfl
  | array elements =>
    rw [Value.inFileOrder, Value.nth, elementsInFileOrder_eq,
      membersSpots_inFileOrder hash64 _ (arrayStart pos elements.length), List.map_map,
      List.getElem?_map]
    rfl

theorem Spot.under_inFileOrder (spot : Spot) (path : List Nat) :
    (spot.value.inFileOrder hash64).under path = ((nodesNesting hash64).under spot path).map
      fun below => below.value.inFileOrder hash64 := by
  induction path generalizing spot with
  | nil => rfl
  | cons i path ih =>
    rw [Value.under, Nesting.under, Spot.nth_inFileOrder]
    change _ = Option.map _ ((spot.children hash64)[i]?.bind _)
    cases (spot.children hash64)[i]? with
    | none => rfl
    | some child => exact ih child

/-- The offsets of the file lead through the spots. -/
theorem Spot.Held.nodeUnder (haligned : 8 ∣ base) (hsmall : file.length < 2 ^ 64)
    {spot : Spot} (h : spot.Held hash64 base file addr) (path : List Nat) :
    Hrbl.nodeUnder file (base + spot.kindPos) path =
        ((nodesNesting hash64).under spot path).map (fun below => base + below.kindPos) ∧
      ∀ below, (nodesNesting hash64).under spot path = some below →
        below.Held hash64 base file addr := by
  induction path generalizing spot with
  | nil =>
    refine ⟨rfl, fun below hbelow => ?_⟩
    cases hbelow
    exact h
  | cons i path ih =>
    obtain ⟨hchild, hchildren⟩ := h.childAt haligned hsmall i
    rw [Hrbl.nodeUnder, hchild, Nesting.under]
    change Option.bind (Option.map _ (spot.children hash64)[i]?) _ = Option.map _
      ((spot.children hash64)[i]?.bind _) ∧ ∀ below, (spot.children hash64)[i]?.bind _ = _ → _
    cases hspot : (spot.children hash64)[i]? with
    | none => exact ⟨rfl, fun _ hbelow => by cases hbelow⟩
    | some child => exact ih (hchildren child (List.mem_of_getElem? hspot))

theorem kind_inFileOrder (hash64 : Bytes → UInt64) (value : Value) :
    (value.inFileOrder hash64).kind = value.kind := by
  cases value <;> rw [Value.inFileOrder] <;> rfl

theorem width_inFileOrder (hash64 : Bytes → UInt64) (value : Value) :
    (value.inFileOrder hash64).width = value.width := by
  cases value with
  | scalar s => rw [Value.inFileOrder]
  | block members =>
    rw [Value.inFileOrder, Value.width, length_stableSort, length_membersInFileOrder, Value.width]
  | array elements =>
    rw [Value.inFileOrder, Value.width, length_elementsInFileOrder, Value.width]

/-- A spot is as a node of the file should be. -/
theorem Spot.Held.lies (haligned : 8 ∣ base) (hsmall : file.length < 2 ^ 64) {spot : Spot}
    (h : spot.Held hash64 base file addr)
    (hstart : (Header.decode file).nodesOffset.toNat = base)
    (hinside : base + (spot.kindPos + spot.value.width) ≤
      base + (Header.decode file).nodesSize.toNat) :
    NodeLies file (spot.value.inFileOrder hash64) (base + spot.kindPos) := by
  have hlt := h.lt_length
  have hdvd := spot.dvd_body haligned
  constructor
  · rw [kind_inFileOrder]
    exact h.kind
  · rw [kind_inFileOrder]
    exact bodyPlace_eq hdvd (by omega)
  · rw [kind_inFileOrder]
    exact hdvd
  · intro i hcontainer
    rw [kind_inFileOrder] at hcontainer
    have height : spot.value.kind.bodyAlign = 8 := by
      rcases hcontainer with hkind | hkind
      · rw [hkind]
        rfl
      · rw [hkind]
        rfl
    have hstride : 8 ∣ (spot.value.inFileOrder hash64).stride := by
      cases spot.value.inFileOrder hash64 with
      | scalar s => exact Nat.dvd_zero 8
      | block members => exact ⟨3, rfl⟩
      | array elements => exact ⟨1, rfl⟩
    rw [height] at hdvd
    have hheader : 8 ∣ base + spot.kindPos + 9 := (Nat.dvd_add_right hdvd).mpr (Nat.dvd_refl 8)
    exact Nat.dvd_add hheader (hstride.mul_left i)
  · rw [width_inFileOrder, hstart]
    omega

end

/-! ## Files -/

section

variable {hash64 : Bytes → UInt64} {document : Document}

/-- The members of the root, in the order of the root index. -/
def rootSpots (hash64 : Bytes → UInt64) (document : Document) : List Spot :=
  sortedSpots hash64 (membersSpots 0 document)

theorem under_inFileOrder (hash64 : Bytes → UInt64) (document : Document) (path : List Nat) :
    (document.inFileOrder hash64).under path =
      ((nodesNesting hash64).among (rootSpots hash64 document) path).map
        fun spot => spot.value.inFileOrder hash64 := by
  cases path with
  | nil => rfl
  | cons i path =>
    rw [Document.under, Document.inFileOrder, membersSpots_inFileOrder hash64 document 0,
      stableSort_map, List.getElem?_map, Nesting.among]
    change Option.bind (Option.map _ (rootSpots hash64 document)[i]?) _ = _
    cases (rootSpots hash64 document)[i]? with
    | none => rfl
    | some spot => exact spot.under_inFileOrder path

theorem header_documentFile (hash64 : Bytes → UInt64) (document : Document) :
    Header.decode (documentFile hash64 document) = documentHeader hash64 document := by
  refine Header.decode_of_hasAt ?_
  rw [documentFile, List.append_assoc]
  exact List.prefix_append _ _

variable (hsize : documentSize hash64 document < 2 ^ 64) (hnarrow : document.Narrow)

include hnarrow in
theorem rootSpots_held : ∀ spot ∈ rootSpots hash64 document,
    spot.Held hash64 (nodesStart document) (documentFile hash64 document)
      (documentAddress hash64 document) := by
  obtain ⟨-, hnodes, -⟩ := documentFile_hasAt hash64 document
  intro spot hspot
  exact membersSpots_held hnarrow.2 hnodes spot ((sortedSpots_perm _ _).mem_iff.mp hspot)

include hsize hnarrow

/-- The root index leads to the spots of the root. -/
theorem nodeAt_documentFile (path : List Nat) :
    nodeAt (documentFile hash64 document) path =
        ((nodesNesting hash64).among (rootSpots hash64 document) path).map
          (fun spot => nodesStart document + spot.kindPos) ∧
      ∀ spot, (nodesNesting hash64).among (rootSpots hash64 document) path = some spot →
        spot.Held hash64 (nodesStart document) (documentFile hash64 document)
          (documentAddress hash64 document) := by
  cases path with
  | nil => exact ⟨rfl, fun _ hspot => by cases hspot⟩
  | cons i path =>
    have hlength := length_documentFile hash64 document
    obtain ⟨hstart, hstrings, hfooter, hend⟩ := document_parts hash64 document
    have hheld : ∀ spot ∈ rootSpots hash64 document, _ := rootSpots_held hnarrow
    have haligned : 8 ∣ nodesStart document := by omega
    obtain ⟨htable, -, -⟩ := documentFile_hasAt hash64 document
    have hcount : (Header.decode (documentFile hash64 document)).rootCount.toNat =
        document.length := by
      rw [header_documentFile]
      exact toNat_ofNat_of_lt64 (by omega)
    have hspots : (rootSpots hash64 document).length = document.length := by
      rw [rootSpots, (sortedSpots_perm _ _).length_eq, length_membersSpots]
    rw [membersSpots_offsets hash64 _ hnarrow.2] at htable
    rw [nodeAt, hcount, Nesting.among]
    by_cases hi : i < document.length
    · obtain ⟨spot, hspot⟩ : ∃ spot, (rootSpots hash64 document)[i]? = some spot :=
        ⟨_, List.getElem?_eq_getElem (by rwa [hspots])⟩
      have hmem := List.mem_of_getElem? hspot
      have hleads := entry_leads (by omega)
        (fun child hchild => hheld child ((sortedSpots_perm _ _).mem_iff.mpr hchild)) htable
        (by rwa [length_membersSpots])
      rw [← rootSpots, hspot, Option.map_some] at hleads
      rw [if_pos hi, Option.some.inj hleads, hspot]
      exact (hheld spot hmem).nodeUnder haligned (by omega) path
    · rw [if_neg hi, List.getElem?_eq_none (by omega)]
      exact ⟨rfl, fun _ hspot => by cases hspot⟩

/-- The nodes of the file of a document lie as they should. -/
theorem documentFile_nodesLie :
    NodesLie (documentFile hash64 document) (document.inFileOrder hash64) := by
  have hlength := length_documentFile hash64 document
  obtain ⟨hstart, hstrings, hfooter, hend⟩ := document_parts hash64 document
  have hwidth := membersEnd_eq hash64 (nodesStart document) 0 hnarrow.2
  have hperm := sortedSpots_perm hash64 (membersSpots 0 document)
  obtain ⟨hinside, hapart⟩ := membersSpots_inside hash64 document 0
  have hroots : ∀ spot ∈ rootSpots hash64 document, spot.value.Narrow :=
    fun spot hspot => mem_membersSpots hnarrow.2 (hperm.mem_iff.mp hspot)
  have hrootsApart : (rootSpots hash64 document).Pairwise (nodesNesting hash64).Apart :=
    hperm.symm.pairwise hapart fun h => h.symm
  constructor
  · intro path value hvalue
    rw [under_inFileOrder] at hvalue
    obtain ⟨spot, hspot, rfl⟩ := Option.map_eq_some_iff.mp hvalue
    obtain ⟨hnode, hheld⟩ := nodeAt_documentFile hsize hnarrow path
    refine ⟨_, by rw [hnode, hspot]; rfl, ?_⟩
    have hbase : (Header.decode (documentFile hash64 document)).nodesOffset.toNat =
        nodesStart document := by
      rw [header_documentFile]
      exact toNat_ofNat_of_lt64 (by omega)
    have hnodes : (Header.decode (documentFile hash64 document)).nodesSize.toNat =
        membersEnd 0 document := by
      rw [header_documentFile]
      refine (toNat_ofNat_of_lt64 (by omega)).trans ?_
      omega
    refine (hheld spot hspot).lies (by omega) (by omega) hbase ?_
    obtain ⟨root, hroot, hstop⟩ : ∃ root ∈ rootSpots hash64 document,
        spot.kindPos + spot.value.width ≤ valueEnd root.pos root.value := by
      cases path with
      | nil => cases hspot
      | cons i path =>
        obtain ⟨root, hroot, hbelow⟩ := Option.bind_eq_some_iff.mp hspot
        have hmem := List.mem_of_getElem? hroot
        exact ⟨root, hmem, (Nesting.own_inside (nodesNesting_tight hash64) (hroots root hmem)
          hbelow).2⟩
    have hle := (hinside root (hperm.mem_iff.mp hroot)).2
    omega
  · intro path hnone
    rw [under_inFileOrder, Option.map_eq_none_iff] at hnone
    rw [(nodeAt_documentFile hsize hnarrow path).1, hnone]
    rfl
  · intro path path' value value' offset offset' hne hvalue hvalue' hoffset hoffset'
    rw [under_inFileOrder] at hvalue hvalue'
    obtain ⟨spot, hspot, rfl⟩ := Option.map_eq_some_iff.mp hvalue
    obtain ⟨spot', hspot', rfl⟩ := Option.map_eq_some_iff.mp hvalue'
    rw [(nodeAt_documentFile hsize hnarrow path).1, hspot] at hoffset
    rw [(nodeAt_documentFile hsize hnarrow path').1, hspot'] at hoffset'
    cases hoffset
    cases hoffset'
    have hown := Nesting.among_ownApart (nodesNesting_tight hash64) hroots hrootsApart hspot
      hspot' hne
    rw [width_inFileOrder, width_inFileOrder]
    dsimp only
    rcases hown with h | h
    · change spot.kindPos + spot.value.width ≤ spot'.kindPos at h
      exact .inl (by omega)
    · change spot'.kindPos + spot'.value.width ≤ spot.kindPos at h
      exact .inr (by omega)

end

/-! ## A count that has wrapped -/

theorem copies_inFileOrder (hash64 : Bytes → UInt64) (key s : Bytes) (n : Nat) :
    (copies key s n).inFileOrder hash64 = copies key s n := by
  have helements : elementsInFileOrder hash64 (List.replicate n (.scalar (.string s))) =
      List.replicate n (.scalar (.string s)) := by
    induction n with
    | zero => rfl
    | succ n ih => rw [List.replicate_succ, elementsInFileOrder, ih, Value.inFileOrder]
  have hmembers : membersInFileOrder hash64 (copies key s n) = copies key s n := by
    rw [copies, membersInFileOrder, membersInFileOrder, Value.inFileOrder, helements]
  rw [Document.inFileOrder, hmembers]
  rfl

/-- So many strings and the table for them need more room than the strings alone. -/
theorem not_nodesLie {key s : Bytes} {file : Bytes} {n : Nat} (hn : 1 < n)
    (hsize : (Header.decode file).nodesSize.toNat = 16 + 12 * n) :
    ¬NodesLie file (copies key s n) := by
  intro h
  have hunder : ∀ i ∈ Finset.range n, (copies key s n).under [0, i] =
      some (.scalar (.string s)) := by
    intro i hi
    have hget : (List.replicate n (Value.scalar (.string s)))[i]? = some (.scalar (.string s)) := by
      rw [List.getElem?_replicate, if_pos (Finset.mem_range.mp hi)]
    change ((List.replicate n (Value.scalar (.string s)))[i]?.bind fun child =>
      child.under []) = _
    rw [hget]
    rfl
  have hnotin : [0] ∉ (Finset.range n).image fun i => [0, i] := by
    intro hin
    obtain ⟨i, -, hi⟩ := Finset.mem_image.mp hin
    cases hi
  have hvalue : ∀ path ∈ insert [0] ((Finset.range n).image fun i => [0, i]),
      ∃ value, (copies key s n).under path = some value := by
    intro path hpath
    rcases Finset.mem_insert.mp hpath with rfl | hpath
    · exact ⟨_, rfl⟩
    · obtain ⟨i, hi, rfl⟩ := Finset.mem_image.mp hpath
      exact ⟨_, hunder i hi⟩
  have hinside : ∀ path ∈ insert [0] ((Finset.range n).image fun i => [0, i]),
      (Header.decode file).nodesOffset.toNat ≤ (nodeAt file path).getD 0 ∧
        (nodeAt file path).getD 0 + (((copies key s n).under path).map Value.width).getD 0 ≤
          (Header.decode file).nodesOffset.toNat + (Header.decode file).nodesSize.toNat := by
    intro path hpath
    obtain ⟨value, hvalue⟩ := hvalue path hpath
    obtain ⟨offset, hoffset, hlies⟩ := h.node path value hvalue
    rw [hoffset, hvalue]
    exact hlies.inside
  have hle := sum_width_le (fun path => (nodeAt file path).getD 0)
    (fun path => (((copies key s n).under path).map Value.width).getD 0) hinside (by
      intro path hpath path' hpath' hne
      obtain ⟨value, hvalue₁⟩ := hvalue path hpath
      obtain ⟨value', hvalue₂⟩ := hvalue path' hpath'
      obtain ⟨offset, hoffset, -⟩ := h.node path value hvalue₁
      obtain ⟨offset', hoffset', -⟩ := h.node path' value' hvalue₂
      have happart := h.apart path path' value value' offset offset' hne hvalue₁ hvalue₂ hoffset
        hoffset'
      rw [hoffset, hoffset', hvalue₁, hvalue₂]
      exact happart)
  have harray : (copies key s n).under [0] =
      some (.array (List.replicate n (.scalar (.string s)))) := rfl
  have hstrings : ∀ i ∈ Finset.range n,
      (((copies key s n).under [0, i]).map Value.width).getD 0 = 9 := by
    intro i hi
    rw [hunder i hi]
    rfl
  rw [Finset.sum_insert hnotin, Finset.sum_image (by
    intro i _ j _ hij
    cases hij
    rfl), Finset.sum_congr rfl hstrings, Finset.sum_const, Finset.card_range, smul_eq_mul, harray,
    hsize] at hle
  change 9 + (List.replicate n (Value.scalar (.string s))).length * 8 + n * 9 ≤ 16 + 12 * n at hle
  rw [List.length_replicate] at hle
  omega

/-! ## Finalized files -/

/-- Where no array has 2^32 elements, the nodes of the file that is returned are those of the
document, each aligned and right after its kind byte, apart from all others and inside of their
section. -/
theorem finalized_nodes_lie {env : Env} {options : Option WriterOptions} {ops : List Op}
    {w : Writer} (hrun : (Writer.create options).runs env ops = some w)
    (hclosed : w.currentScope = none) :
    ∃ document : Document, Builder.empty.run ops = some ⟨document, []⟩ ∧
      (membersArraysNarrow document → ∀ file w', finalizeToBuffer env w = .returned file w' →
        NodesLie file (document.inFileOrder env.hash64)) := by
  obtain ⟨⟨document, scopes⟩, hb, htracks, -, -⟩ :=
    runs_tracks (create_tracks env options) (by simp [Writer.create]) hrun
  obtain ⟨rfl, trees, hstored⟩ := htracks.stored hclosed
  refine ⟨document, hb, ?_⟩
  intro harrays file w' hreturned
  obtain ⟨hencodable, rfl⟩ := finalizeToBuffer_file hstored harrays hreturned
  exact documentFile_nodesLie hencodable.size hencodable.narrow

/-- A string behind the kind byte of a boolean, in a block. -/
theorem finalized_nodes_lie_block :
    ∃ w file w', (Writer.create none).runs (.succeeding fun key => UInt64.ofNat key.length)
        [.beginBlock (.data []), .setBool (.data [0x61]) true,
          .setString (.data [0x62]) [0x78], .endBlock] = some w ∧
      finalizeToBuffer (.succeeding fun key => UInt64.ofNat key.length) w = .returned file w' ∧
      NodesLie file [([], .block [([0x61], .scalar (.bool true)),
        ([0x62], .scalar (.string [0x78]))])] := by
  obtain ⟨w, hrun, hclosed, hworkers⟩ : ∃ w, (Writer.create none).runs
      (.succeeding fun key => UInt64.ofNat key.length)
      [.beginBlock (.data []), .setBool (.data [0x61]) true,
        .setString (.data [0x62]) [0x78], .endBlock] = some w ∧ w.currentScope = none ∧
        WorkersFit w.options.workerCount := ⟨_, rfl, rfl, by decide⟩
  obtain ⟨document, hb, hlie⟩ := finalized_nodes_lie hrun hclosed
  obtain ⟨document', hb', hwritten⟩ := runs_written hrun hclosed
  obtain rfl : document = [([], .block [([0x61], .scalar (.bool true)),
    ([0x62], .scalar (.string [0x78]))])] := by cases hb; rfl
  cases hb.symm.trans hb'
  obtain ⟨b, w', hreturned, -⟩ :=
    (hwritten (by decide +kernel)).returned (Env.succeeding_succeeds _) hworkers
  have hnodes := hlie ⟨⟨trivial, trivial, trivial⟩, trivial⟩ _ _ hreturned
  exact ⟨w, b.bytes, w', hrun, hreturned, hnodes⟩

/-- An array of 2^32 strings: no room is reserved for its table, so in the file that is returned
the table is where the strings are. -/
theorem finalized_nodes_overlap :
    ¬∀ (env : Env) (options : Option WriterOptions) (ops : List Op) (w : Writer),
      (Writer.create options).runs env ops = some w → w.currentScope = none →
      ∃ document : Document, Builder.empty.run ops = some ⟨document, []⟩ ∧
        ∀ file w', finalizeToBuffer env w = .returned file w' →
          NodesLie file (document.inFileOrder env.hash64) := by
  intro hall
  obtain ⟨n, hwrap, hn, hlt⟩ := exists_wrapping
  have henv := Env.succeeding_succeeds fun _ => 0
  obtain ⟨w, trees, hrun, hclosed, hstored⟩ :=
    runs_copyOps henv none (by decide) (by decide) (copies_room hlt)
  obtain ⟨document, hb, hlie⟩ := hall _ _ _ w hrun hclosed
  cases hb.symm.trans (run_copyOps (by decide) (by decide) n)
  obtain ⟨file, w', hreturned, -, hsize⟩ :=
    copies_finalized henv hstored hwrap (Nat.zero_lt_of_lt hn) hlt
  have hnodes := hlie file w' hreturned
  rw [copies_inFileOrder] at hnodes
  exact not_nodesLie hn hsize hnodes

end Hrbl
