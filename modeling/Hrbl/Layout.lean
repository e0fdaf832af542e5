import Hrbl.Document
import Hrbl.Format
import Hrbl.Strings
import Hrbl.Lib.Relocation
import Hrbl.Lib.StableSort

/-!
# The layout of a document

Where the parts of a document go in a file, as an image whose references are strings.
This is what a file of a document is to be, without buffers, pools or fixups: the encoder
is proved to write it, and the reader and the verifier to accept it.
-/

namespace Hrbl

open Lib

/-! ## Scalars -/

/-- The kind a scalar is stored under. -/
def Scalar.kind : Scalar → Kind
  | .null => .null
  | .bool value => if value then .true else .false
  | .int64 _ => .int64
  | .uint64 _ => .uint64
  | .float64 _ => .float64
  | .string _ => .string

/-- What follows the kind byte of a scalar. -/
def Scalar.image : Scalar → List (Chunk Bytes)
  | .null | .bool _ => []
  | .int64 value => [.raw (le64 value.toUInt64)]
  | .uint64 value => [.raw (le64 value)]
  | .float64 bits => [.raw (le64 bits)]
  | .string value => [.ref value, .raw (le32 (UInt32.ofNat value.length))]

/-! ## Values -/

/-- Where the kind byte of a value goes that comes after `pos` bytes. -/
def kindOffset (pos bodyAlign : Nat) : Nat := alignUpNat (pos + 1) bodyAlign - 1

/-- The padding in front of a kind byte, and the byte. -/
def kindImage (pos : Nat) (kind : Kind) (bodyAlign : Nat) : Bytes :=
  List.replicate (kindOffset pos bodyAlign - pos) 0 ++ [kind.byte]

/-- The alignment of what follows the kind byte of a value. -/
def Value.bodyAlign : Value → Nat
  | .scalar s => s.kind.bodyAlign
  | .block _ | .array _ => 8

/-- The entry of a member. -/
def entryImage (hash64 : Bytes → UInt64) (member : Bytes × Nat) : List (Chunk Bytes) :=
  [.raw (le64 (hash64 member.1)), .ref member.1,
    .raw (le32 (UInt32.ofNat member.1.length) ++ le64 (UInt64.ofNat member.2))]

/-- That entry, when the addresses of keys are known. -/
def entryWith (hash64 : Bytes → UInt64) (addr : Bytes → UInt32) (member : Bytes × Nat) : Entry where
  keyHash64 := hash64 member.1
  keyPoolOffset := addr member.1
  keyLength := UInt32.ofNat member.1.length
  valueOffset := UInt64.ofNat member.2

theorem render_entryImage (hash64 : Bytes → UInt64) (addr : Bytes → UInt32)
    (member : Bytes × Nat) :
    render addr (entryImage hash64 member) = (entryWith hash64 addr member).encode := by
  simp only [entryImage, render, Entry.encode, entryWith, le32, le64, List.append_nil,
    List.append_assoc]

theorem imageWidth_entryImage (hash64 : Bytes → UInt64) (member : Bytes × Nat) :
    imageWidth (entryImage hash64 member) = 24 := by
  simp [entryImage, Chunk.width]

/-- The entries of members, by the hash of their keys. -/
def entriesImage (hash64 : Bytes → UInt64) (members : List (Bytes × Nat)) : List (Chunk Bytes) :=
  (stableSort (fun m => (hash64 m.1).toNat) members).flatMap (entryImage hash64)

mutual

/-- The image of a value that comes after `pos` bytes of nodes, when the nodes start at
`base` in the file. -/
def valueImage (hash64 : Bytes → UInt64) (base pos : Nat) : Value → List (Chunk Bytes)
  | .scalar s => .raw (kindImage pos s.kind s.kind.bodyAlign) :: s.image
  | .block members =>
    let first := kindOffset pos 8 + 9 + members.length * 24
    let (offsets, images) := membersImage hash64 base first members
    .raw (kindImage pos .block 8 ++ le32 (UInt32.ofNat members.length)
      ++ le32 (UInt32.ofNat (members.length * 24))) :: entriesImage hash64 offsets ++ images
  | .array elements =>
    let first := kindOffset pos 8 + 9 + elements.length * 8
    let (offsets, images) := elementsImage hash64 base first elements
    .raw (kindImage pos .array 8 ++ le32 (UInt32.ofNat elements.length)
      ++ le32 (UInt32.ofNat (elements.length * 8))
      ++ offsets.flatMap fun offset => le64 (UInt64.ofNat offset)) :: images

/-- The images of members one after the other, and where in the file the value of each key
is. -/
def membersImage (hash64 : Bytes → UInt64) (base pos : Nat) :
    List (Bytes × Value) → List (Bytes × Nat) × List (Chunk Bytes)
  | [] => ([], [])
  | (key, value) :: members =>
    let image := valueImage hash64 base pos value
    let (offsets, images) := membersImage hash64 base (pos + imageWidth image) members
    ((key, base + kindOffset pos value.bodyAlign) :: offsets, image ++ images)

/-- The same for the elements of an array. -/
def elementsImage (hash64 : Bytes → UInt64) (base pos : Nat) :
    List Value → List Nat × List (Chunk Bytes)
  | [] => ([], [])
  | value :: elements =>
    let image := valueImage hash64 base pos value
    let (offsets, images) := elementsImage hash64 base (pos + imageWidth image) elements
    ((base + kindOffset pos value.bodyAlign) :: offsets, image ++ images)

end

/-- Where the members of a block go that comes after `pos` bytes. -/
def blockStart (pos count : Nat) : Nat := kindOffset pos 8 + 9 + count * 24

/-- Where the elements of an array go that comes after `pos` bytes. -/
def arrayStart (pos count : Nat) : Nat := kindOffset pos 8 + 9 + count * 8

theorem valueImage_block (hash64 : Bytes → UInt64) (base pos : Nat)
    (members : List (Bytes × Value)) :
    valueImage hash64 base pos (.block members) =
      .raw (kindImage pos .block 8 ++ le32 (UInt32.ofNat members.length)
        ++ le32 (UInt32.ofNat (members.length * 24))) ::
      (entriesImage hash64 (membersImage hash64 base (blockStart pos members.length) members).1
        ++ (membersImage hash64 base (blockStart pos members.length) members).2) := rfl

theorem valueImage_array (hash64 : Bytes → UInt64) (base pos : Nat) (elements : List Value) :
    valueImage hash64 base pos (.array elements) =
      .raw (kindImage pos .array 8 ++ le32 (UInt32.ofNat elements.length)
        ++ le32 (UInt32.ofNat (elements.length * 8))
        ++ (elementsImage hash64 base (arrayStart pos elements.length) elements).1.flatMap
          fun offset => le64 (UInt64.ofNat offset)) ::
      (elementsImage hash64 base (arrayStart pos elements.length) elements).2 := rfl

theorem membersImage_cons (hash64 : Bytes → UInt64) (base pos : Nat) (key : Bytes)
    (value : Value) (members : List (Bytes × Value)) :
    membersImage hash64 base pos ((key, value) :: members) =
      ((key, base + kindOffset pos value.bodyAlign) ::
        (membersImage hash64 base (pos + imageWidth (valueImage hash64 base pos value))
          members).1,
      valueImage hash64 base pos value ++
        (membersImage hash64 base (pos + imageWidth (valueImage hash64 base pos value))
          members).2) := rfl

theorem elementsImage_cons (hash64 : Bytes → UInt64) (base pos : Nat) (value : Value)
    (elements : List Value) :
    elementsImage hash64 base pos (value :: elements) =
      ((base + kindOffset pos value.bodyAlign) ::
        (elementsImage hash64 base (pos + imageWidth (valueImage hash64 base pos value))
          elements).1,
      valueImage hash64 base pos value ++
        (elementsImage hash64 base (pos + imageWidth (valueImage hash64 base pos value))
          elements).2) := rfl

@[simp] theorem refTargets_entries (hash64 : Bytes → UInt64) (members : List (Bytes × Nat)) :
    refTargets (members.flatMap (entryImage hash64)) = members.map Prod.fst := by
  induction members with
  | nil => rfl
  | cons m members ih => rw [List.flatMap_cons, refTargets_append, ih]; rfl

@[simp] theorem imageWidth_entries (hash64 : Bytes → UInt64) (members : List (Bytes × Nat)) :
    imageWidth (members.flatMap (entryImage hash64)) = members.length * 24 := by
  induction members with
  | nil => rfl
  | cons m members ih =>
    rw [List.flatMap_cons, imageWidth_append, ih, imageWidth_entryImage, List.length_cons]
    omega

@[simp] theorem membersImage_keys (hash64 : Bytes → UInt64) (base pos : Nat)
    (members : List (Bytes × Value)) :
    (membersImage hash64 base pos members).1.map Prod.fst = members.map Prod.fst := by
  induction members generalizing pos with
  | nil => rfl
  | cons m members ih => simp only [membersImage, List.map_cons, ih]

/-- A block refers to its keys, and to what its members refer to. -/
theorem mem_refTargets_block {hash64 : Bytes → UInt64} {base pos : Nat}
    {members : List (Bytes × Value)} {s : Bytes} :
    s ∈ refTargets (valueImage hash64 base pos (.block members)) ↔
      s ∈ members.map Prod.fst ++
        refTargets (membersImage hash64 base (blockStart pos members.length) members).2 := by
  rw [valueImage_block, refTargets, refTargets_append, entriesImage, refTargets_entries,
    List.mem_append, List.mem_append, ((stableSort_perm _ _).map Prod.fst).mem_iff,
    membersImage_keys]

@[simp] theorem length_membersImage (hash64 : Bytes → UInt64) (base pos : Nat)
    (members : List (Bytes × Value)) :
    (membersImage hash64 base pos members).1.length = members.length := by
  have hkeys := congrArg List.length (membersImage_keys hash64 base pos members)
  rwa [List.length_map, List.length_map] at hkeys

/-- Elements are laid out as members are. -/
theorem elementsImage_eq (hash64 : Bytes → UInt64) (base pos : Nat) (elements : List Value) :
    elementsImage hash64 base pos elements =
      ((membersImage hash64 base pos (elements.map fun e => ([], e))).1.map Prod.snd,
        (membersImage hash64 base pos (elements.map fun e => ([], e))).2) := by
  induction elements generalizing pos with
  | nil => rfl
  | cons e elements ih => simp only [elementsImage, List.map_cons, membersImage, ih]

@[simp] theorem length_elementsImage (hash64 : Bytes → UInt64) (base pos : Nat)
    (elements : List Value) :
    (elementsImage hash64 base pos elements).1.length = elements.length := by
  rw [elementsImage_eq, List.length_map, length_membersImage, List.length_map]

/-! ## Files -/

/-- Where the nodes of a document start. -/
def nodesStart (document : Document) : Nat := 128 + document.length * 24

/-- The strings of a document, in the order of a file: those with contents and those that
are values first, the empty key last. -/
def documentStrings (hash64 : Bytes → UInt64) (document : Document) : List Bytes :=
  withEmpty (internAll [] (membersUses document))
    (document.map Prod.fst ++
      refTargets (membersImage hash64 (nodesStart document) 0 document).2)

/-- Where the strings of a document start. -/
def stringsStart (hash64 : Bytes → UInt64) (document : Document) : Nat :=
  nodesStart document + imageWidth (membersImage hash64 (nodesStart document) 0 document).2

/-- Where the strings of a document end. -/
def footerStart (hash64 : Bytes → UInt64) (document : Document) : Nat :=
  stringsStart hash64 document + (poolBytes (documentStrings hash64 document)).length

/-- The address of the record of a string, in the 32 bits that are stored. -/
def documentAddress (hash64 : Bytes → UInt64) (document : Document) (s : Bytes) : UInt32 :=
  UInt32.ofNat (stringsStart hash64 document + poolOffsetOf (documentStrings hash64 document) s)

/-- What is between the header and the footer. -/
def documentPayload (hash64 : Bytes → UInt64) (document : Document) : Bytes :=
  let laid := membersImage hash64 (nodesStart document) 0 document
  render (documentAddress hash64 document) (entriesImage hash64 laid.1)
    ++ render (documentAddress hash64 document) laid.2
    ++ poolBytes (documentStrings hash64 document)

def documentHeader (hash64 : Bytes → UInt64) (document : Document) : Header where
  magic := magicNumber
  versionMajor := versionMajorNumber
  versionMinor := versionMinorNumber
  fileSize := UInt64.ofNat (footerStart hash64 document + 32)
  flags := flagsV1Required
  rootCount := UInt64.ofNat document.length
  rootIndexOffset := rootIndexStart
  rootIndexSize := UInt64.ofNat (document.length * 24)
  nodesOffset := UInt64.ofNat (nodesStart document)
  nodesSize := UInt64.ofNat (stringsStart hash64 document - nodesStart document)
  stringsOffset := UInt64.ofNat (stringsStart hash64 document)
  stringsSize := UInt64.ofNat (poolBytes (documentStrings hash64 document)).length
  stringsCount := UInt64.ofNat (documentStrings hash64 document).length
  footerOffset := UInt64.ofNat (footerStart hash64 document)
  checksumXxh3 := hash64 (documentPayload hash64 document)
  reserved := fun _ => 0

def documentFooter (hash64 : Bytes → UInt64) (document : Document) : Footer where
  checksumXxh3 := hash64 (documentPayload hash64 document)
  fileSize := UInt64.ofNat (footerStart hash64 document + 32)
  magicEnd := magicNumber
  reserved := fun _ => 0

/-- The file of a document. -/
def documentFile (hash64 : Bytes → UInt64) (document : Document) : Bytes :=
  (documentHeader hash64 document).encode ++ documentPayload hash64 document
    ++ (documentFooter hash64 document).encode

/-- The size of the file of a document. -/
def documentSize (hash64 : Bytes → UInt64) (document : Document) : Nat :=
  footerStart hash64 document + 32

/-! ## References -/

theorem Scalar.mem_refTargets {s : Scalar} {u : Bytes} (h : u ∈ refTargets s.image) :
    u ∈ s.uses := by
  cases s <;> exact h

mutual

/-- A value refers to nothing but strings below it and the empty string. -/
theorem mem_of_mem_refTargets_value {hash64 : Bytes → UInt64} {base : Nat} {u : Bytes} :
    ∀ {value : Value} {pos : Nat}, u ∈ refTargets (valueImage hash64 base pos value) →
      u = [] ∨ u ∈ valueUses value
  | .scalar _, _, h => .inr (Scalar.mem_refTargets h)
  | .block _, _, h => mem_of_mem_refTargets_members (mem_refTargets_block.mp h)
  | .array _, _, h => mem_of_mem_refTargets_elements h

theorem mem_of_mem_refTargets_members {hash64 : Bytes → UInt64} {base : Nat} {u : Bytes} :
    ∀ {members : List (Bytes × Value)} {pos : Nat},
      u ∈ members.map Prod.fst ++ refTargets (membersImage hash64 base pos members).2 →
        u = [] ∨ u ∈ membersUses members
  | [], _, h => absurd h List.not_mem_nil
  | (key, value) :: members, pos, h => by
    rw [membersImage_cons, List.map_cons, refTargets_append] at h
    rw [membersUses, List.mem_append, List.mem_append]
    simp only [List.cons_append, List.mem_cons, List.mem_append] at h
    rcases h with rfl | hkey | hvalue | hmembers
    · by_cases hempty : u = []
      · exact .inl hempty
      · rw [keyUses, if_neg hempty]
        exact .inr (.inl (.inl (List.mem_singleton.mpr rfl)))
    · have hmem : u ∈ members.map Prod.fst ++
          refTargets (membersImage hash64 base pos members).2 := List.mem_append_left _ hkey
      exact (mem_of_mem_refTargets_members hmem).imp_right .inr
    · exact (mem_of_mem_refTargets_value hvalue).imp_right fun hu => .inl (.inr hu)
    · exact (mem_of_mem_refTargets_members (List.mem_append_right _ hmembers)).imp_right .inr

theorem mem_of_mem_refTargets_elements {hash64 : Bytes → UInt64} {base : Nat} {u : Bytes} :
    ∀ {elements : List Value} {pos : Nat},
      u ∈ refTargets (elementsImage hash64 base pos elements).2 →
        u = [] ∨ u ∈ elementsUses elements
  | [], _, h => absurd h List.not_mem_nil
  | value :: elements, pos, h => by
    have hsplit : u ∈ refTargets (valueImage hash64 base pos value ++
        (elementsImage hash64 base (pos + imageWidth (valueImage hash64 base pos value))
          elements).2) := h
    rw [refTargets_append, List.mem_append] at hsplit
    rw [elementsUses, List.mem_append]
    rcases hsplit with hvalue | helements
    · exact (mem_of_mem_refTargets_value hvalue).imp_right .inl
    · exact (mem_of_mem_refTargets_elements helements).imp_right .inr

end

/-- What a document refers to. -/
def documentRefs (hash64 : Bytes → UInt64) (document : Document) : List Bytes :=
  document.map Prod.fst ++
    refTargets (membersImage hash64 (nodesStart document) 0 document).2

/-- The strings that are collected from a document. -/
def collectedStrings (document : Document) : List Bytes := internAll [] (membersUses document)

theorem documentStrings_eq (hash64 : Bytes → UInt64) (document : Document) :
    documentStrings hash64 document =
      withEmpty (collectedStrings document) (documentRefs hash64 document) := rfl

/-- Every reference is to a string of the file. -/
theorem mem_documentStrings {hash64 : Bytes → UInt64} {document : Document} {u : Bytes}
    (h : u ∈ documentRefs hash64 document) : u ∈ documentStrings hash64 document := by
  rw [documentStrings_eq, withEmpty]
  by_cases hempty : [] ∈ documentRefs hash64 document
  · rw [if_pos hempty]
    rcases mem_of_mem_refTargets_members h with rfl | huses
    · exact mem_internString _ _
    · exact (prefix_internString _ _).subset (mem_internAll.mpr (.inr huses))
  · rw [if_neg hempty]
    rcases mem_of_mem_refTargets_members h with rfl | huses
    · exact absurd h hempty
    · exact mem_internAll.mpr (.inr huses)

theorem documentStrings_isPrefix (hash64 : Bytes → UInt64) (document : Document) :
    documentStrings hash64 document <+: internString (collectedStrings document) [] := by
  rw [documentStrings_eq]
  rcases withEmpty_cases (collectedStrings document) (documentRefs hash64 document) with h | h
  · rw [h]
    exact prefix_internString _ _
  · rw [h]

end Hrbl
