import Hrbl.Document
import Hrbl.Layout
import Hrbl.Reader
import Hrbl.Lib.StableSort

/-!
# Contents

What a client gets out of an open file with the calls of `bc_hrbl_reader.h`: it walks the
root index, opens an iterator on every block and array, and asks for every scalar. `Holds`
says the same about the bytes, without a client: this offset of the file holds that value.
-/

namespace Hrbl

open Lib Lib.Outcome

/-! ## A client -/

/-- The bytes of a range that a call hands out. -/
def readRange (r : Reader) (range : Range) : Outcome Bytes :=
  load r.base range.offset range.length.toNat

/-- The scalar behind a reference, by its kind. -/
def readScalar (r : Reader) (value : ValueRef) : Outcome Scalar :=
  match value.kind with
  | .null => .ok .null
  | .false | .true => do
    let bool ← getBool r value
    return .bool bool
  | .int64 => do
    let int64 ← getInt64 r value
    return .int64 int64
  | .uint64 => do
    let uint64 ← getUint64 r value
    return .uint64 uint64
  | .float64 => do
    let bits ← getFloat64 r value
    return .float64 bits
  | .string => do
    let range ← getString r value
    let bytes ← readRange r range
    return .string bytes
  | .block | .array => .no

/-- The key of an item; the elements of an array have none. -/
def readKey (r : Reader) : Option Range → Outcome Bytes
  | none => .ok []
  | some range => readRange r range

/-- `while (bc_hrbl_iter_next(..))`, with what the client does to each value. -/
def readItems (r : Reader) (child : ValueRef → Outcome Value) :
    Nat → Iter → Outcome (List (Bytes × Value))
  | 0, _ => .ok []
  | turns + 1, iter =>
    match iterNext r iter with
    | .no => .ok []
    | .fault => .fault
    | .ok (iter, value, range) => do
      let key ← readKey r range
      let value ← child value
      let items ← readItems r child turns iter
      return (key, value) :: items

/-- The value behind a reference, down to `depth` levels. -/
def readValue (r : Reader) : Nat → ValueRef → Outcome Value
  | 0, _ => .no
  | depth + 1, value =>
    match value.kind with
    | .block => do
      let iter ← iterBlock r value
      let items ← readItems r (readValue r depth) (iter.remaining.toNat + 1) iter
      return .block items
    | .array => do
      let iter ← iterArray r value
      let items ← readItems r (readValue r depth) (iter.remaining.toNat + 1) iter
      return .array (items.map Prod.snd)
    | _ => do
      let scalar ← readScalar r value
      return .scalar scalar

/-- The entries of the root index, from `index` on until there are no more. -/
def readRoots (r : Reader) (child : ValueRef → Outcome Value) :
    Nat → UInt64 → Outcome (List (Bytes × Value))
  | 0, _ => .ok []
  | turns + 1, index =>
    match rootAtOffset r index with
    | .no => .ok []
    | .fault => .fault
    | .ok (range, valueOffset) => do
      let key ← readRange r range
      let kind ← kindAt r valueOffset
      let value ← child { nodeOffset := valueOffset, kind }
      let items ← readRoots r child turns (index + 1)
      return (key, value) :: items

/-- The whole document; a value takes at least one byte, so the size bounds its depth. -/
def readDocument (r : Reader) : Outcome Document :=
  readRoots r (readValue r r.size.toNat) (r.header.rootCount.toNat + 1) 0

/-! ## File order -/

mutual

/-- The value with the members of every block in the order of a file, which is the stable
order of the hashes of the keys. -/
def Value.inFileOrder (hash64 : Bytes → UInt64) : Value → Value
  | .scalar s => .scalar s
  | .block members =>
    .block (stableSort (fun m => (hash64 m.1).toNat) (membersInFileOrder hash64 members))
  | .array elements => .array (elementsInFileOrder hash64 elements)

def membersInFileOrder (hash64 : Bytes → UInt64) : List (Bytes × Value) → List (Bytes × Value)
  | [] => []
  | (key, value) :: members =>
    (key, value.inFileOrder hash64) :: membersInFileOrder hash64 members

def elementsInFileOrder (hash64 : Bytes → UInt64) : List Value → List Value
  | [] => []
  | value :: elements => value.inFileOrder hash64 :: elementsInFileOrder hash64 elements

end

/-- The document with the root and every block in the order of a file. -/
def Document.inFileOrder (hash64 : Bytes → UInt64) (document : Document) : Document :=
  stableSort (fun m => (hash64 m.1).toNat) (membersInFileOrder hash64 document)

/-- The kind a value is stored under. -/
def Value.kind : Value → Kind
  | .scalar s => s.kind
  | .block _ => .block
  | .array _ => .array

mutual

/-- How many levels a value has. -/
def Value.depth : Value → Nat
  | .scalar _ => 1
  | .block members => membersDepth members + 1
  | .array elements => elementsDepth elements + 1

def membersDepth : List (Bytes × Value) → Nat
  | [] => 0
  | (_, value) :: members => max value.depth (membersDepth members)

def elementsDepth : List Value → Nat
  | [] => 0
  | value :: elements => max value.depth (elementsDepth elements)

end

/-! ## Values in a file -/

/-- An entry with this key. -/
structure HoldsKey (hash64 : Bytes → UInt64) (r : Reader) (entry : Entry) (key : Bytes) :
    Prop where
  hash_eq : entry.keyHash64 = hash64 key
  length_eq : entry.keyLength.toNat = key.length
  inside : entry.keyPoolOffset.toNat + 4 + key.length ≤ r.base.bytes.length
  bytes : load r.base (entry.keyPoolOffset.toUInt64 + 4) key.length = .ok key

/-- A node with this scalar. -/
structure HoldsScalar (r : Reader) (offset : UInt64) (s : Scalar) : Prop where
  kindAt : kindAt r offset = .ok s.kind
  read : readScalar r { nodeOffset := offset, kind := s.kind } = .ok s

mutual

/-- The value is at this offset of the file, its blocks in the order of their entries. -/
def Holds (hash64 : Bytes → UInt64) (r : Reader) (offset : UInt64) : Value → Prop
  | .scalar s => HoldsScalar r offset s
  | .block members => kindAt r offset = .ok .block ∧ ∃ header start,
      blockBodyOffsets r offset = .ok (header, start) ∧
      header.childCount.toNat = members.length ∧ HoldsMembers hash64 r start members
  | .array elements => kindAt r offset = .ok .array ∧ ∃ header start,
      arrayBodyOffsets r offset = .ok (header, start) ∧
      header.elementCount.toNat = elements.length ∧ HoldsElements hash64 r start elements

/-- Entries of these members one after the other. -/
def HoldsMembers (hash64 : Bytes → UInt64) (r : Reader) (start : UInt64) :
    List (Bytes × Value) → Prop
  | [] => True
  | (key, value) :: members => (∃ entry, readEntry r start = .ok entry ∧
      HoldsKey hash64 r entry key ∧ Holds hash64 r entry.valueOffset value) ∧
      HoldsMembers hash64 r (start + 24) members

/-- Offsets of these elements one after the other. -/
def HoldsElements (hash64 : Bytes → UInt64) (r : Reader) (start : UInt64) :
    List Value → Prop
  | [] => True
  | value :: elements => (start.toNat + 8 ≤ r.base.bytes.length ∧ ∃ offset,
      loadU64 r.base start = .ok offset ∧ Holds hash64 r offset value) ∧
      HoldsElements hash64 r (start + 8) elements

end

/-! ## Reading values -/

section

variable {hash64 : Bytes → UInt64} {r : Reader}

theorem Holds.kindAt {offset : UInt64} {value : Value} (h : Holds hash64 r offset value) :
    kindAt r offset = .ok value.kind := by
  cases value with
  | scalar s => rw [Holds] at h; exact h.kindAt
  | block members => rw [Holds] at h; exact h.1
  | array elements => rw [Holds] at h; exact h.1

theorem HoldsKey.range {entry : Entry} {key : Bytes} (h : HoldsKey hash64 r entry key) :
    ∃ range, entryKeyRange r entry = .ok range ∧ readRange r range = .ok key := by
  have hsize := r.base.toNat_size
  have hlt := r.base.length_lt
  have hinside := h.inside
  have hlength := h.length_eq
  have hfour : (4 : UInt64).toNat = 4 := rfl
  have hend : ¬ entry.keyPoolOffset.toUInt64 + 4 + entry.keyLength.toUInt64 > r.size := by
    rw [gt_iff_lt, UInt64.lt_iff_toNat_lt, UInt64.toNat_add, UInt64.toNat_add, hfour,
      UInt32.toNat_toUInt64, UInt32.toNat_toUInt64, hsize]
    omega
  refine ⟨_, if_neg hend, ?_⟩
  rw [readRange, UInt32.toNat_toUInt64, hlength]
  exact h.bytes

/-- A walk over entries. -/
theorem readItems_members {child : ValueRef → Outcome Value} (endOffset : UInt64) :
    ∀ {members : List (Bytes × Value)} {start : UInt64} {remaining : UInt32} {turns : Nat},
      HoldsMembers hash64 r start members → remaining.toNat = members.length →
      members.length < turns →
      (∀ m ∈ members, ∀ offset, Holds hash64 r offset m.2 →
        child { nodeOffset := offset, kind := m.2.kind } = .ok m.2) →
      readItems r child turns ⟨start, endOffset, remaining, true⟩ = .ok members
  | [], start, remaining, turns + 1, _, hremaining, _, _ => by
    have hzero : remaining = 0 := UInt32.toNat_inj.mp hremaining
    rw [readItems, iterNext, if_pos hzero]
  | (key, value) :: members, start, remaining, turns + 1, h, hremaining, hturns, hchild => by
    rw [HoldsMembers] at h
    obtain ⟨⟨entry, hentry, hkey, hvalue⟩, hrest⟩ := h
    rw [List.length_cons] at hremaining hturns
    have hone : (1 : UInt32).toNat = 1 := rfl
    have hne : remaining ≠ 0 := by
      rintro rfl
      cases hremaining
    have hless : (remaining - 1).toNat = members.length := by
      have hlt := remaining.toNat_lt
      rw [UInt32.toNat_sub, hone, hremaining]
      omega
    obtain ⟨range, hrange, hbytes⟩ := hkey.range
    have hnext := readItems_members endOffset hrest hless (show members.length < turns by omega)
      fun m hm => hchild m (List.mem_cons_of_mem _ hm)
    simp only [readItems, iterNext, if_neg hne, if_true, hentry, hrange, hvalue.kindAt, ok_bind,
      pure_eq, readKey, hbytes, hchild _ List.mem_cons_self _ hvalue]
    rw [hnext]
    rfl

/-- A walk over elements. -/
theorem readItems_elements {child : ValueRef → Outcome Value} (endOffset : UInt64) :
    ∀ {elements : List Value} {start : UInt64} {remaining : UInt32} {turns : Nat},
      HoldsElements hash64 r start elements → remaining.toNat = elements.length →
      elements.length < turns →
      (∀ e ∈ elements, ∀ offset, Holds hash64 r offset e →
        child { nodeOffset := offset, kind := e.kind } = .ok e) →
      readItems r child turns ⟨start, endOffset, remaining, false⟩ =
        .ok (elements.map fun e => ([], e))
  | [], start, remaining, turns + 1, _, hremaining, _, _ => by
    have hzero : remaining = 0 := UInt32.toNat_inj.mp hremaining
    rw [readItems, iterNext, if_pos hzero]
    rfl
  | value :: elements, start, remaining, turns + 1, h, hremaining, hturns, hchild => by
    rw [HoldsElements] at h
    obtain ⟨⟨hinside, offset, hoffset, hvalue⟩, hrest⟩ := h
    rw [List.length_cons] at hremaining hturns
    have hone : (1 : UInt32).toNat = 1 := rfl
    have height : (8 : UInt64).toNat = 8 := rfl
    have hne : remaining ≠ 0 := by
      rintro rfl
      cases hremaining
    have hless : (remaining - 1).toNat = elements.length := by
      have hlt := remaining.toNat_lt
      rw [UInt32.toNat_sub, hone, hremaining]
      omega
    have hend : ¬ start + 8 > r.size := by
      have hsize := r.base.toNat_size
      have hlt := r.base.length_lt
      rw [gt_iff_lt, UInt64.lt_iff_toNat_lt, UInt64.toNat_add, height, hsize]
      omega
    have hnext := readItems_elements endOffset hrest hless (show elements.length < turns by omega)
      fun e he => hchild e (List.mem_cons_of_mem _ he)
    simp only [readItems, iterNext, if_neg hne, if_neg hend, hoffset, hvalue.kindAt,
      ok_bind, pure_eq, readKey, hchild _ List.mem_cons_self _ hvalue, Bool.false_eq_true,
      if_false]
    rw [hnext]
    rfl

theorem le_membersDepth {m : Bytes × Value} : ∀ {members : List (Bytes × Value)}, m ∈ members →
    m.2.depth ≤ membersDepth members
  | (_, value) :: members, h => by
    rw [membersDepth]
    rcases List.mem_cons.mp h with rfl | h
    · exact Nat.le_max_left _ _
    · exact (le_membersDepth h).trans (Nat.le_max_right _ _)

theorem le_elementsDepth {e : Value} : ∀ {elements : List Value}, e ∈ elements →
    e.depth ≤ elementsDepth elements
  | value :: elements, h => by
    rw [elementsDepth]
    rcases List.mem_cons.mp h with rfl | h
    · exact Nat.le_max_left _ _
    · exact (le_elementsDepth h).trans (Nat.le_max_right _ _)

theorem readValue_scalar (depth : Nat) (offset : UInt64) (s : Scalar) :
    readValue r (depth + 1) { nodeOffset := offset, kind := s.kind } =
      (do
        let scalar ← readScalar r { nodeOffset := offset, kind := s.kind }
        return .scalar scalar) := by
  cases s with
  | bool value => cases value <;> rfl
  | _ => rfl

/-- A client that goes deep enough reads what the file holds. -/
theorem readValue_of_holds {depth : Nat} : ∀ {value : Value} {offset : UInt64},
    value.depth ≤ depth → Holds hash64 r offset value →
      readValue r depth { nodeOffset := offset, kind := value.kind } = .ok value := by
  induction depth with
  | zero =>
    intro value offset hdepth
    cases value <;> cases hdepth
  | succ depth ih =>
    intro value offset hdepth h
    cases value with
    | scalar s =>
      rw [Holds] at h
      rw [Value.kind, readValue_scalar, h.read]
      rfl
    | block members =>
      rw [Holds] at h
      obtain ⟨-, header, start, hbody, hcount, hmembers⟩ := h
      rw [Value.depth] at hdepth
      have hitems := readItems_members (start + header.childCount.toUInt64 * blockEntrySize)
        hmembers hcount (show members.length < header.childCount.toNat + 1 by omega)
        fun m hm offset hm' => ih (by have hle := le_membersDepth hm; omega) hm'
      simp only [readValue, Value.kind, iterBlock, ne_eq, not_true, if_false, hbody, ok_bind,
        pure_eq, hitems]
    | array elements =>
      rw [Holds] at h
      obtain ⟨-, header, start, hbody, hcount, helements⟩ := h
      rw [Value.depth] at hdepth
      have hitems := readItems_elements (start + header.elementCount.toUInt64 * arrayElementSize)
        helements hcount (show elements.length < header.elementCount.toNat + 1 by omega)
        fun e he offset he' => ih (by have hle := le_elementsDepth he; omega) he'
      have hmap : (elements.map fun e => (([] : Bytes), e)).map Prod.snd = elements := by
        rw [List.map_map]
        exact List.map_id _
      simp only [readValue, Value.kind, iterArray, ne_eq, not_true, if_false, hbody, ok_bind,
        pure_eq, hitems, hmap]

/-- The root index is read from its first entry to its last. -/
theorem readRoots_members {child : ValueRef → Outcome Value} {count : Nat}
    (hcount : r.header.rootCount.toNat = count) :
    ∀ {members : List (Bytes × Value)} {index : UInt64} {turns : Nat},
      HoldsMembers hash64 r (r.header.rootIndexOffset + index * rootEntrySize) members →
      index.toNat + members.length = count → members.length < turns →
      (∀ m ∈ members, ∀ offset, Holds hash64 r offset m.2 →
        child { nodeOffset := offset, kind := m.2.kind } = .ok m.2) →
      readRoots r child turns index = .ok members
  | [], index, turns + 1, _, hindex, _, _ => by
    have hend : index ≥ r.header.rootCount := by
      rw [ge_iff_le, UInt64.le_iff_toNat_le, hcount, ← hindex]
      exact Nat.le_refl _
    rw [readRoots, rootAtOffset, if_pos hend]
  | (key, value) :: members, index, turns + 1, h, hindex, hturns, hchild => by
    rw [HoldsMembers] at h
    obtain ⟨⟨entry, hentry, hkey, hvalue⟩, hrest⟩ := h
    rw [List.length_cons] at hindex hturns
    have hone : (1 : UInt64).toNat = 1 := rfl
    have hlt := r.header.rootCount.toNat_lt
    have hless : ¬ index ≥ r.header.rootCount := by
      rw [ge_iff_le, UInt64.le_iff_toNat_le, hcount]
      omega
    have hsucc : (index + 1).toNat = index.toNat + 1 := by
      rw [UInt64.toNat_add, hone]
      omega
    have hplace : r.header.rootIndexOffset + index * rootEntrySize + 24 =
        r.header.rootIndexOffset + (index + 1) * rootEntrySize := by
      rw [UInt64.add_mul, UInt64.one_mul, UInt64.add_assoc]
    rw [hplace] at hrest
    obtain ⟨range, hrange, hbytes⟩ := hkey.range
    have hnext := readRoots_members hcount hrest (by omega)
      (show members.length < turns by omega)
      fun m hm => hchild m (List.mem_cons_of_mem _ hm)
    simp only [readRoots, rootAtOffset, if_neg hless, hentry, hrange, hvalue.kindAt, ok_bind,
      pure_eq, hbytes, hchild _ List.mem_cons_self _ hvalue]
    rw [hnext]
    rfl

/-- A client reads the document that is in the file. -/
theorem readDocument_of_holds {document : Document}
    (hcount : r.header.rootCount.toNat = document.length)
    (h : HoldsMembers hash64 r r.header.rootIndexOffset document)
    (hdepth : membersDepth document ≤ r.size.toNat) : readDocument r = .ok document := by
  have hzero : (0 : UInt64) * rootEntrySize = 0 := rfl
  have hroots : HoldsMembers hash64 r (r.header.rootIndexOffset + 0 * rootEntrySize) document := by
    rwa [hzero, UInt64.add_zero]
  exact readRoots_members hcount hroots (Nat.zero_add _) (by omega) fun m hm offset hvalue =>
    readValue_of_holds ((le_membersDepth hm).trans hdepth) hvalue

end

end Hrbl
