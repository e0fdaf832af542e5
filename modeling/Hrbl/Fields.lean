import Hrbl.Alignment
import Hrbl.Arrangement

/-!
# The fields of 32 bits

The reference to a string or to a key, the length next to it, and the count and the size in a
header have 32 bits in a file, and the writer stores in them what it has computed in 64. In a file
that is returned each of them is its number modulo 2^32: exact in files up to 4 GB, and behind
that the writer returns fields that have lost their upper half.
-/

namespace Hrbl

open Lib NodeTree

/-! ## Fields of a file -/

/-- The entries of a table refer to the keys and have their lengths. -/
def EntriesStore (stored : Nat → Nat) (place : Bytes → Nat) (file : Bytes) (table : Nat)
    (members : List (Bytes × Value)) : Prop :=
  ∀ i key value, members[i]? = some (key, value) →
    (Entry.decode (file.drop (table + i * 24))).keyPoolOffset.toNat = stored (place key) ∧
    (Entry.decode (file.drop (table + i * 24))).keyLength.toNat = stored key.length

/-- The fields of a node: the reference and the length of a string, and the count and the size of
a container. -/
structure NodeStores (stored : Nat → Nat) (place : Bytes → Nat) (file : Bytes) (offset : Nat)
    (value : Value) : Prop where
  string : ∀ s, value = .scalar (.string s) →
    (u32At file (offset + 1)).toNat = stored (place s) ∧
    (u32At file (offset + 5)).toNat = stored s.length
  block : ∀ members, value = .block members →
    (u32At file (offset + 1)).toNat = stored members.length ∧
    (u32At file (offset + 5)).toNat = stored (members.length * 24) ∧
    EntriesStore stored place file (offset + 9) members
  array : ∀ elements, value = .array elements →
    (u32At file (offset + 1)).toNat = stored elements.length ∧
    (u32At file (offset + 5)).toNat = stored (elements.length * 8)

/-- All fields of a file, those of the root index first. -/
structure FieldsStore (stored : Nat → Nat) (place : Bytes → Nat) (file : Bytes)
    (document : Document) : Prop where
  roots : EntriesStore stored place file 128 document
  node : ∀ path value, document.under path = some value →
    ∃ offset, nodeAt file path = some offset ∧ NodeStores stored place file offset value

/-- The keys of a block, or the string of a scalar. -/
def Value.ownTexts : Value → List Bytes
  | .scalar s => s.uses
  | .block members => members.map Prod.fst
  | .array _ => []

/-- How many bytes the entries or the elements of a container are. -/
def Value.tableSize : Value → Nat
  | .scalar _ => 0
  | .block members => members.length * 24
  | .array elements => elements.length * 8

mutual

/-- The sizes of all tables have 32 bits: no block has 178956971 members, and no array 2^29
elements. -/
def Value.TablesFit : Value → Prop
  | .scalar _ => True
  | .block members => members.length * 24 < 2 ^ 32 ∧ membersTablesFit members
  | .array elements => elements.length * 8 < 2 ^ 32 ∧ elementsTablesFit elements

def membersTablesFit : List (Bytes × Value) → Prop
  | [] => True
  | (_, value) :: members => value.TablesFit ∧ membersTablesFit members

def elementsTablesFit : List Value → Prop
  | [] => True
  | value :: elements => value.TablesFit ∧ elementsTablesFit elements

end

/-- Where the record of a string is in the file of a document. -/
def stringPlace (hash64 : Bytes → UInt64) (document : Document) (s : Bytes) : Nat :=
  stringsStart hash64 document + poolOffsetOf (documentStrings hash64 document) s

/-- All that a file with these numbers has in 32 bits fits: the length and the place of every key
and string, and the sizes of the tables. -/
structure NumbersFit (place : Bytes → Nat) (document : Document) : Prop where
  text : ∀ s ∈ membersTexts document, s.length < 2 ^ 32 ∧ place s < 2 ^ 32
  table : membersTablesFit document

/-- What is left of a number in 32 bits. -/
def low32 (n : Nat) : Nat := n % 2 ^ 32

theorem low32_eq_iff {n : Nat} : low32 n = n ↔ n < 2 ^ 32 := by
  unfold low32
  omega

theorem toNat_ofNat_low32 (n : Nat) : (UInt32.ofNat n).toNat = low32 n := UInt32.toNat_ofNat'

/-! ## What is stored for a spot -/

section

variable {hash64 : Bytes → UInt64} {base : Nat} {file : Bytes} {addr : Bytes → UInt32}

/-- The entry of a sorted spot. -/
theorem entry_held {spots : List Spot} {table i : Nat} {child : Spot}
    (h : HasAt file table (render addr (entriesImage hash64
      (spots.map fun spot => (spot.key, base + spot.kindPos)))))
    (hchild : (sortedSpots hash64 spots)[i]? = some child) :
    Entry.decode (file.drop (table + i * 24)) =
      entryWith hash64 addr (child.key, base + child.kindPos) := by
  rw [render_entriesImage, stableSort_map] at h
  have hentry : (((stableSort (fun spot : Spot => (hash64 spot.key).toNat) spots).map
      fun spot => (spot.key, base + spot.kindPos)).map (entryWith hash64 addr))[i]? =
        some (entryWith hash64 addr (child.key, base + child.kindPos)) := by
    rw [List.getElem?_map, List.getElem?_map]
    exact congrArg (fun o => Option.map _ (Option.map _ o)) hchild
  exact Entry.decode_at (hasAt_entry h hentry)

variable {place : Bytes → Nat} (haddr : ∀ s, (addr s).toNat = low32 (place s))

include haddr

/-- A table of entries stores the low halves of the numbers of its members. -/
theorem entries_store {members : List (Bytes × Value)} {pos table : Nat}
    (h : HasAt file table (render addr (entriesImage hash64
      ((membersSpots pos members).map fun spot => (spot.key, base + spot.kindPos))))) :
    EntriesStore low32 place file table
      (stableSort (fun m => (hash64 m.1).toNat) (membersInFileOrder hash64 members)) := by
  intro i key value hi
  rw [membersSpots_inFileOrder hash64 members pos, stableSort_map, List.getElem?_map,
    Option.map_eq_some_iff] at hi
  obtain ⟨child, hchild, hmember⟩ := hi
  obtain ⟨rfl, -⟩ := Prod.mk.inj hmember
  rw [entry_held h hchild]
  exact ⟨haddr child.key, toNat_ofNat_low32 _⟩

/-- A node stores the low halves of its numbers. -/
theorem Spot.Held.stores {spot : Spot} (h : spot.Held hash64 base file addr) :
    NodeStores low32 place file (base + spot.kindPos) (spot.value.inFileOrder hash64) := by
  obtain ⟨key, pos, value⟩ := spot
  have himage := h.image
  cases value with
  | scalar s =>
    rw [Value.inFileOrder]
    constructor
    -- the reference comes right after the kind byte, and the length behind it
    · intro s' hs
      cases hs
      obtain ⟨-, hbody⟩ := hasAt_kindImage (show 0 < 4 by omega) himage
      obtain ⟨hreference, hrest⟩ := hasAt_append.mp hbody
      obtain ⟨hlength, -⟩ := hasAt_append.mp hrest
      rw [length_leBytes] at hlength
      constructor
      · exact (congrArg UInt32.toNat (u32At_of_hasAt hreference)).trans (haddr s')
      · exact (congrArg UInt32.toNat (u32At_of_hasAt hlength)).trans (toNat_ofNat_low32 _)
    · intro members hs
      cases hs
    · intro elements hs
      cases hs
  | block members =>
    rw [Value.inFileOrder]
    constructor
    · intro s hs
      cases hs
    · intro sorted hsorted
      cases hsorted
      obtain ⟨hbody, -⟩ := hasAt_blockImage himage
      obtain ⟨hheader, htable⟩ := hasAt_append.mp hbody
      obtain ⟨hlength, hbytes⟩ := hasAt_append.mp hheader
      rw [length_le32] at hbytes
      rw [List.length_append, length_le32, length_le32,
        membersSpots_offsets hash64 base h.narrow.2] at htable
      rw [length_stableSort, length_membersInFileOrder]
      refine ⟨?_, ?_, entries_store haddr htable⟩
      · exact (congrArg UInt32.toNat (u32At_of_hasAt hlength)).trans (toNat_ofNat_low32 _)
      · exact (congrArg UInt32.toNat (u32At_of_hasAt hbytes)).trans (toNat_ofNat_low32 _)
    · intro elements hs
      cases hs
  | array elements =>
    rw [Value.inFileOrder]
    constructor
    · intro s hs
      cases hs
    · intro members hs
      cases hs
    · intro ordered hordered
      cases hordered
      obtain ⟨hbody, -⟩ := hasAt_arrayImage himage
      obtain ⟨hheader, -⟩ := hasAt_append.mp hbody
      obtain ⟨hlength, hbytes⟩ := hasAt_append.mp hheader
      rw [length_le32] at hbytes
      rw [length_elementsInFileOrder]
      constructor
      · exact (congrArg UInt32.toNat (u32At_of_hasAt hlength)).trans (toNat_ofNat_low32 _)
      · exact (congrArg UInt32.toNat (u32At_of_hasAt hbytes)).trans (toNat_ofNat_low32 _)

end

/-! ## Files -/

theorem poolOffsetOf_le (strings : List Bytes) (s : Bytes) :
    poolOffsetOf strings s ≤ (poolBytes strings).length := by
  induction strings with
  | nil => exact Nat.zero_le _
  | cons t strings ih =>
    rw [poolOffsetOf, poolBytes, List.flatMap_cons, List.length_append]
    split
    · exact Nat.zero_le _
    · exact Nat.add_le_add_left ih _

section

variable {place : Bytes → Nat} {file : Bytes}

/-- What is stored of numbers that fit are the numbers, and of no others. -/
theorem EntriesStore.exact_iff {table : Nat} {members : List (Bytes × Value)}
    (h : EntriesStore low32 place file table members) :
    EntriesStore (fun n => n) place file table members ↔
      ∀ s ∈ members.map Prod.fst, s.length < 2 ^ 32 ∧ place s < 2 ^ 32 := by
  constructor
  · intro hexact s hs
    obtain ⟨m, hm, rfl⟩ := List.mem_map.mp hs
    obtain ⟨i, hi⟩ := List.mem_iff_getElem?.mp hm
    obtain ⟨hreference, hlength⟩ := h i _ _ hi
    obtain ⟨hreference', hlength'⟩ := hexact i _ _ hi
    exact ⟨low32_eq_iff.mp (hlength.symm.trans hlength'),
      low32_eq_iff.mp (hreference.symm.trans hreference')⟩
  · intro hfit i key value hi
    obtain ⟨hreference, hlength⟩ := h i key value hi
    obtain ⟨hshort, hplace⟩ := hfit key (List.mem_map_of_mem (List.mem_of_getElem? hi))
    exact ⟨hreference.trans (low32_eq_iff.mpr hplace), hlength.trans (low32_eq_iff.mpr hshort)⟩

theorem NodeStores.exact_iff {offset : Nat} {value : Value}
    (h : NodeStores low32 place file offset value) :
    NodeStores (fun n => n) place file offset value ↔
      (∀ s ∈ value.ownTexts, s.length < 2 ^ 32 ∧ place s < 2 ^ 32) ∧
        value.tableSize < 2 ^ 32 := by
  -- a field that stores a number below 2^32 stores it exactly, and both ways of reading it agree
  cases value with
  | scalar s =>
    constructor
    · intro hexact
      refine ⟨?_, Nat.two_pow_pos 32⟩
      intro u hu
      cases s with
      | string u' =>
        obtain rfl : u = u' := List.mem_singleton.mp hu
        obtain ⟨hreference, hlength⟩ := h.string u rfl
        obtain ⟨hreference', hlength'⟩ := hexact.string u rfl
        exact ⟨low32_eq_iff.mp (hlength.symm.trans hlength'),
          low32_eq_iff.mp (hreference.symm.trans hreference')⟩
      | _ => cases hu
    · rintro ⟨hfit, -⟩
      constructor
      · rintro u ⟨⟩
        obtain ⟨hreference, hlength⟩ := h.string u rfl
        obtain ⟨hshort, hplace⟩ := hfit u List.mem_cons_self
        exact ⟨hreference.trans (low32_eq_iff.mpr hplace),
          hlength.trans (low32_eq_iff.mpr hshort)⟩
      · rintro members ⟨⟩
      · rintro elements ⟨⟩
  | block members =>
    obtain ⟨hcount, hsize, hentries⟩ := h.block members rfl
    constructor
    · intro hexact
      obtain ⟨-, hsize', hentries'⟩ := hexact.block members rfl
      exact ⟨hentries.exact_iff.mp hentries', low32_eq_iff.mp (hsize.symm.trans hsize')⟩
    · rintro ⟨hfit, htable⟩
      rw [Value.tableSize] at htable
      constructor
      · rintro u ⟨⟩
      · rintro members ⟨⟩
        exact ⟨hcount.trans (low32_eq_iff.mpr (by omega)), hsize.trans (low32_eq_iff.mpr htable),
          hentries.exact_iff.mpr hfit⟩
      · rintro elements ⟨⟩
  | array elements =>
    obtain ⟨hcount, hsize⟩ := h.array elements rfl
    constructor
    · intro hexact
      obtain ⟨-, hsize'⟩ := hexact.array elements rfl
      refine ⟨?_, low32_eq_iff.mp (hsize.symm.trans hsize')⟩
      intro s hs
      cases hs
    · rintro ⟨-, htable⟩
      rw [Value.tableSize] at htable
      constructor
      · rintro u ⟨⟩
      · rintro members ⟨⟩
      · rintro elements ⟨⟩
        exact ⟨hcount.trans (low32_eq_iff.mpr (by omega)), hsize.trans (low32_eq_iff.mpr htable)⟩

end

mutual

/-- All keys and strings but the empty key are collected. -/
theorem valueTexts_used {s : Bytes} : ∀ {value : Value}, s ∈ valueTexts value →
    s = [] ∨ s ∈ valueUses value
  | .scalar _, h => .inr h
  | .block _, h => membersTexts_used h
  | .array _, h => elementsTexts_used h

theorem membersTexts_used {s : Bytes} : ∀ {members : List (Bytes × Value)},
    s ∈ membersTexts members → s = [] ∨ s ∈ membersUses members
  | [], h => .inr h
  | (key, value) :: members, h => by
    rw [membersTexts, List.cons_append, List.mem_cons, List.mem_append] at h
    rw [membersUses, List.append_assoc, List.mem_append, List.mem_append, keyUses]
    rcases h with rfl | hvalue | hmembers
    · by_cases hempty : s = []
      · exact .inl hempty
      · rw [if_neg hempty]
        exact .inr (.inl List.mem_cons_self)
    · exact (valueTexts_used hvalue).imp_right fun h => .inr (.inl h)
    · exact (membersTexts_used hmembers).imp_right fun h => .inr (.inr h)

theorem elementsTexts_used {s : Bytes} : ∀ {elements : List Value},
    s ∈ elementsTexts elements → s = [] ∨ s ∈ elementsUses elements
  | [], h => .inr h
  | value :: elements, h => by
    rw [elementsTexts, List.mem_append] at h
    rw [elementsUses, List.mem_append]
    rcases h with hvalue | helements
    · exact (valueTexts_used hvalue).imp_right .inl
    · exact (elementsTexts_used helements).imp_right .inr

end

theorem valueTexts_nth {value child : Value} {i : Nat} (h : value.nth i = some child) :
    valueTexts child ⊆ valueTexts value := by
  intro s hs
  cases value with
  | scalar s => cases h
  | block members =>
    obtain ⟨m, hm, rfl⟩ := Option.map_eq_some_iff.mp h
    exact mem_membersTexts.mpr ⟨m, List.mem_of_getElem? hm, .inr hs⟩
  | array elements => exact mem_elementsTexts.mpr ⟨child, List.mem_of_getElem? h, hs⟩

theorem valueTexts_under {value child : Value} {path : List Nat}
    (h : value.under path = some child) : valueTexts child ⊆ valueTexts value := by
  induction path generalizing value with
  | nil =>
    cases h
    exact List.Subset.refl _
  | cons i path ih =>
    obtain ⟨next, hnext, hunder⟩ := Option.bind_eq_some_iff.mp h
    exact List.Subset.trans (ih hunder) (valueTexts_nth hnext)

/-- The keys and strings below a node are some of the document. -/
theorem membersTexts_under {document : Document} {value : Value} {path : List Nat}
    (h : document.under path = some value) : valueTexts value ⊆ membersTexts document := by
  cases path with
  | nil => cases h
  | cons i path =>
    obtain ⟨m, hm, hunder⟩ := Option.bind_eq_some_iff.mp h
    intro s hs
    exact mem_membersTexts.mpr ⟨m, List.mem_of_getElem? hm, .inr (valueTexts_under hunder hs)⟩

mutual

/-- A key or a string is that of some node. -/
theorem valueTexts_at {s : Bytes} : ∀ {value : Value}, s ∈ valueTexts value →
    ∃ path v, value.under path = some v ∧ s ∈ v.ownTexts
  | .scalar _, h => ⟨[], _, rfl, h⟩
  | .block _, h => by
    rcases membersTexts_at h with hkey | ⟨i, m, path, v, hi, hunder, hs⟩
    · exact ⟨[], _, rfl, hkey⟩
    · refine ⟨i :: path, v, ?_, hs⟩
      rw [Value.under, Value.nth, hi]
      exact hunder
  | .array _, h => by
    obtain ⟨i, e, path, v, hi, hunder, hs⟩ := elementsTexts_at h
    refine ⟨i :: path, v, ?_, hs⟩
    rw [Value.under, Value.nth, hi]
    exact hunder

theorem membersTexts_at {s : Bytes} : ∀ {members : List (Bytes × Value)},
    s ∈ membersTexts members → s ∈ members.map Prod.fst ∨
      ∃ (i : Nat) (m : Bytes × Value) (path : List Nat) (v : Value),
        members[i]? = some m ∧ m.2.under path = some v ∧ s ∈ v.ownTexts
  | (key, value) :: members, h => by
    rw [membersTexts, List.cons_append, List.mem_cons, List.mem_append] at h
    rcases h with rfl | hvalue | hmembers
    · exact .inl List.mem_cons_self
    · obtain ⟨path, v, hunder, hs⟩ := valueTexts_at hvalue
      exact .inr ⟨0, _, path, v, rfl, hunder, hs⟩
    · rcases membersTexts_at hmembers with hkey | ⟨i, m, path, v, hi, hunder, hs⟩
      · exact .inl (List.mem_cons_of_mem _ hkey)
      · exact .inr ⟨i + 1, m, path, v, hi, hunder, hs⟩

theorem elementsTexts_at {s : Bytes} : ∀ {elements : List Value}, s ∈ elementsTexts elements →
    ∃ (i : Nat) (e : Value) (path : List Nat) (v : Value),
      elements[i]? = some e ∧ e.under path = some v ∧ s ∈ v.ownTexts
  | value :: elements, h => by
    rw [elementsTexts, List.mem_append] at h
    rcases h with hvalue | helements
    · obtain ⟨path, v, hunder, hs⟩ := valueTexts_at hvalue
      exact ⟨0, value, path, v, rfl, hunder, hs⟩
    · obtain ⟨i, e, path, v, hi, hunder, hs⟩ := elementsTexts_at helements
      exact ⟨i + 1, e, path, v, hi, hunder, hs⟩

end

theorem Value.ownTexts_subset (value : Value) : value.ownTexts ⊆ valueTexts value := by
  intro s hs
  cases value with
  | scalar s => exact hs
  | block members =>
    obtain ⟨m, hm, rfl⟩ := List.mem_map.mp hs
    exact mem_membersTexts.mpr ⟨m, hm, .inl rfl⟩
  | array elements => cases hs

/-! ## Sizes of tables -/

theorem membersTablesFit_iff {members : List (Bytes × Value)} :
    membersTablesFit members ↔ ∀ m ∈ members, m.2.TablesFit := by
  induction members with
  | nil => simp [membersTablesFit]
  | cons m members ih =>
    obtain ⟨key, value⟩ := m
    rw [membersTablesFit, ih, List.forall_mem_cons]

theorem elementsTablesFit_iff {elements : List Value} :
    elementsTablesFit elements ↔ ∀ e ∈ elements, e.TablesFit := by
  induction elements with
  | nil => simp [elementsTablesFit]
  | cons e elements ih => rw [elementsTablesFit, ih, List.forall_mem_cons]

theorem RearrangedElements.length_eq {order : List (Bytes × Value) → List (Bytes × Value) → Prop} :
    ∀ {elements out : List Value}, RearrangedElements order elements out →
      out.length = elements.length
  | [], _, rfl => rfl
  | _ :: _, _, ⟨_, _, rfl, _, helements⟩ => congrArg (· + 1) helements.length_eq

mutual

/-- Another order has tables of the same sizes. -/
theorem Rearranged.tablesFit : ∀ {value out : Value}, Rearranged List.Perm value out →
    (out.TablesFit ↔ value.TablesFit)
  | .scalar _, _, rfl => Iff.rfl
  | .block members, _, ⟨mid, out, rfl, hmid, hperm⟩ => by
    have hout : membersTablesFit out ↔ membersTablesFit mid := by
      simp only [membersTablesFit_iff, hperm.mem_iff]
    have hlength : members.length = mid.length := (rearrangedMembers_iff.mp hmid).length_eq
    rw [Value.TablesFit, Value.TablesFit, hout, RearrangedMembers.tablesFit hmid, hlength,
      hperm.length_eq]
  | .array elements, _, ⟨out, rfl, helements⟩ => by
    rw [Value.TablesFit, Value.TablesFit, RearrangedElements.tablesFit helements,
      RearrangedElements.length_eq helements]

theorem RearrangedMembers.tablesFit : ∀ {members out : List (Bytes × Value)},
    RearrangedMembers List.Perm members out → (membersTablesFit out ↔ membersTablesFit members)
  | [], _, rfl => Iff.rfl
  | (_, _) :: _, _, ⟨_, _, rfl, hvalue, hmembers⟩ => by
    rw [membersTablesFit, membersTablesFit, hvalue.tablesFit, hmembers.tablesFit]

theorem RearrangedElements.tablesFit : ∀ {elements out : List Value},
    RearrangedElements List.Perm elements out →
      (elementsTablesFit out ↔ elementsTablesFit elements)
  | [], _, rfl => Iff.rfl
  | _ :: _, _, ⟨_, _, rfl, hvalue, helements⟩ => by
    rw [elementsTablesFit, elementsTablesFit, hvalue.tablesFit, helements.tablesFit]

end

theorem NumbersFit.rearranged {place : Bytes → Nat} {document out : Document}
    (h : RearrangedDocument List.Perm document out) :
    NumbersFit place out ↔ NumbersFit place document := by
  have htables : membersTablesFit out ↔ membersTablesFit document := by
    obtain ⟨mid, hmid, hperm⟩ := h
    have hout : membersTablesFit out ↔ membersTablesFit mid := by
      simp only [membersTablesFit_iff, hperm.mem_iff]
    exact hout.trans hmid.tablesFit
  constructor
  · rintro ⟨htext, htable⟩
    exact ⟨fun s hs => htext s (h.mem_texts.mpr hs), htables.mp htable⟩
  · rintro ⟨htext, htable⟩
    exact ⟨fun s hs => htext s (h.mem_texts.mp hs), htables.mpr htable⟩

theorem Value.TablesFit.tableSize_lt {value : Value} (h : value.TablesFit) :
    value.tableSize < 2 ^ 32 := by
  cases value with
  | scalar s => exact Nat.two_pow_pos 32
  | block members => exact h.1
  | array elements => exact h.1

theorem Value.TablesFit.under {value v : Value} {path : List Nat} (h : value.TablesFit)
    (hunder : value.under path = some v) : v.TablesFit := by
  induction path generalizing value with
  | nil =>
    cases hunder
    exact h
  | cons i path ih =>
    obtain ⟨next, hnext, hunder⟩ := Option.bind_eq_some_iff.mp hunder
    refine ih ?_ hunder
    cases value with
    | scalar s => cases hnext
    | block members =>
      obtain ⟨m, hm, rfl⟩ := Option.map_eq_some_iff.mp hnext
      exact membersTablesFit_iff.mp h.2 m (List.mem_of_getElem? hm)
    | array elements => exact elementsTablesFit_iff.mp h.2 next (List.mem_of_getElem? hnext)

mutual

/-- It is enough to know the size of every table. -/
theorem tablesFit_of_under : ∀ {value : Value},
    (∀ path v, value.under path = some v → v.tableSize < 2 ^ 32) → value.TablesFit
  | .scalar _, _ => trivial
  | .block _, h => by
    refine ⟨h [] _ rfl, membersTablesFit_of_under fun i m hi path v hv => h (i :: path) v ?_⟩
    rw [Value.under, Value.nth, hi]
    exact hv
  | .array _, h => by
    refine ⟨h [] _ rfl, elementsTablesFit_of_under fun i e hi path v hv => h (i :: path) v ?_⟩
    rw [Value.under, Value.nth, hi]
    exact hv

theorem membersTablesFit_of_under : ∀ {members : List (Bytes × Value)},
    (∀ (i : Nat) (m : Bytes × Value), members[i]? = some m → ∀ path (v : Value),
      m.2.under path = some v → v.tableSize < 2 ^ 32) → membersTablesFit members
  | [], _ => trivial
  | (_, _) :: _, h => ⟨tablesFit_of_under (h 0 _ rfl),
      membersTablesFit_of_under fun i m hi => h (i + 1) m hi⟩

theorem elementsTablesFit_of_under : ∀ {elements : List Value},
    (∀ (i : Nat) (e : Value), elements[i]? = some e → ∀ path (v : Value),
      e.under path = some v → v.tableSize < 2 ^ 32) → elementsTablesFit elements
  | [], _ => trivial
  | _ :: _, h => ⟨tablesFit_of_under (h 0 _ rfl),
      elementsTablesFit_of_under fun i e hi => h (i + 1) e hi⟩

end

mutual

/-- Arrays with tables that fit have counts that do. -/
theorem Value.TablesFit.arrays : ∀ {value : Value}, value.TablesFit → value.ArraysNarrow
  | .scalar _, _ => trivial
  | .block _, h => membersTablesFit_arrays h.2
  | .array _, h => ⟨by have hlt := h.1; omega, elementsTablesFit_arrays h.2⟩

theorem membersTablesFit_arrays : ∀ {members : List (Bytes × Value)},
    membersTablesFit members → membersArraysNarrow members
  | [], _ => trivial
  | (_, _) :: _, h => ⟨h.1.arrays, membersTablesFit_arrays h.2⟩

theorem elementsTablesFit_arrays : ∀ {elements : List Value},
    elementsTablesFit elements → elementsArraysNarrow elements
  | [], _ => trivial
  | _ :: _, h => ⟨h.1.arrays, elementsTablesFit_arrays h.2⟩

end

/-- The fields of a file are the numbers exactly when all of these fit. -/
theorem FieldsStore.exact_iff {place : Bytes → Nat} {file : Bytes} {document : Document}
    (h : FieldsStore low32 place file document) :
    FieldsStore (fun n => n) place file document ↔ NumbersFit place document := by
  obtain ⟨hroots, hnodes⟩ := h
  constructor
  · rintro ⟨hroots', hnodes'⟩
    -- a value lies where its path leads, for both readings at the same offset
    have hfit : ∀ path v, document.under path = some v →
        (∀ s ∈ v.ownTexts, s.length < 2 ^ 32 ∧ place s < 2 ^ 32) ∧ v.tableSize < 2 ^ 32 := by
      intro path v hv
      obtain ⟨offset, hoffset, hstores⟩ := hnodes path v hv
      obtain ⟨offset', hoffset', hexact⟩ := hnodes' path v hv
      cases hoffset.symm.trans hoffset'
      exact hstores.exact_iff.mp hexact
    constructor
    · intro s hs
      rcases membersTexts_at hs with hkey | ⟨i, m, path, v, hi, hunder, hown⟩
      · exact hroots.exact_iff.mp hroots' s hkey
      · refine (hfit (i :: path) v ?_).1 s hown
        rw [Document.under, hi]
        exact hunder
    · refine membersTablesFit_of_under fun i m hi path v hv => (hfit (i :: path) v ?_).2
      rw [Document.under, hi]
      exact hv
  · rintro ⟨htext, htable⟩
    constructor
    · refine hroots.exact_iff.mpr fun s hs => htext s ?_
      obtain ⟨m, hm, rfl⟩ := List.mem_map.mp hs
      exact mem_membersTexts.mpr ⟨m, hm, .inl rfl⟩
    · intro path value hvalue
      obtain ⟨offset, hoffset, hstores⟩ := hnodes path value hvalue
      refine ⟨offset, hoffset, hstores.exact_iff.mpr ⟨?_, ?_⟩⟩
      · exact fun s hs => htext s (membersTexts_under hvalue (value.ownTexts_subset hs))
      · cases path with
        | nil => cases hvalue
        | cons i path =>
          obtain ⟨m, hm, hunder⟩ := Option.bind_eq_some_iff.mp hvalue
          have hfit := membersTablesFit_iff.mp htable m (List.mem_of_getElem? hm)
          exact (hfit.under hunder).tableSize_lt

section

variable {hash64 : Bytes → UInt64} {document : Document}

/-- The strings of a document are where their places say. -/
theorem stringPlace_record {s : Bytes} (h : s ∈ documentStrings hash64 document) :
    HasAt (documentFile hash64 document) (stringPlace hash64 document s) (record s) := by
  obtain ⟨-, -, hpool⟩ := documentFile_hasAt hash64 document
  have hlt := poolOffsetOf_lt h
  exact (hasAt_record h).trans (hpool.drop _ (by omega))

/-- The keys and strings of a file of up to 4 GB. -/
theorem length_lt_of_mem_membersTexts (hsmall : documentSize hash64 document ≤ 2 ^ 32) {s : Bytes}
    (h : s ∈ membersTexts document) : s.length < 2 ^ 32 := by
  rcases membersTexts_used h with rfl | huses
  · exact Nat.two_pow_pos 32
  -- the record of the string is in the pool
  have hcollected : s ∈ collectedStrings document := mem_internAll.mpr (.inr huses)
  have hmem : s ∈ documentStrings hash64 document := by
    rw [documentStrings_eq, withEmpty]
    split
    · exact (prefix_internString _ _).subset hcollected
    · exact hcollected
  have hplace := poolOffsetOf_lt hmem
  have hpad := le_alignUpNat (show 0 < 4 by omega) s.length
  obtain ⟨hstart, hstrings, hfooter, hend⟩ := document_parts hash64 document
  rw [length_record] at hplace
  omega

variable (hsize : documentSize hash64 document < 2 ^ 64) (hnarrow : document.Narrow)

include hsize hnarrow

/-- The file of a document stores the low halves of its numbers. -/
theorem documentFile_fieldsStore : FieldsStore low32 (stringPlace hash64 document)
    (documentFile hash64 document) (document.inFileOrder hash64) := by
  have haddr : ∀ s, (documentAddress hash64 document s).toNat =
      low32 (stringPlace hash64 document s) := fun s => toNat_ofNat_low32 _
  obtain ⟨htable, -, -⟩ := documentFile_hasAt hash64 document
  rw [membersSpots_offsets hash64 _ hnarrow.2] at htable
  constructor
  · exact entries_store haddr htable
  · intro path value hvalue
    rw [under_inFileOrder] at hvalue
    obtain ⟨spot, hspot, rfl⟩ := Option.map_eq_some_iff.mp hvalue
    obtain ⟨hnode, hheld⟩ := nodeAt_documentFile hsize hnarrow path
    rw [hspot] at hnode
    exact ⟨_, hnode, (hheld spot hspot).stores haddr⟩

/-- In a file of up to 4 GB nothing is lost. -/
theorem documentFile_numbersFit (hsmall : documentSize hash64 document ≤ 2 ^ 32) :
    NumbersFit (stringPlace hash64 document) (document.inFileOrder hash64) := by
  obtain ⟨hstart, hstrings, hfooter, hend⟩ := document_parts hash64 document
  have hlies := documentFile_nodesLie hsize hnarrow
  constructor
  · intro s hs
    have htext := (rearrangedDocument_inFileOrder hash64 document).mem_texts.mp hs
    refine ⟨length_lt_of_mem_membersTexts hsmall htext, ?_⟩
    have hle := poolOffsetOf_le (documentStrings hash64 document) s
    rw [stringPlace]
    omega
  -- a table is a part of its node, and the node is in the file
  · refine membersTablesFit_of_under fun i m hi path v hv => ?_
    have hunder : (document.inFileOrder hash64).under (i :: path) = some v := by
      rw [Document.under, hi]
      exact hv
    obtain ⟨offset, -, hlie⟩ := hlies.node (i :: path) v hunder
    have hinside := hlie.inside.2
    rw [header_documentFile] at hinside
    have hnodesStart : (documentHeader hash64 document).nodesOffset.toNat =
        nodesStart document := toNat_ofNat_of_lt64 (by omega)
    have hnodesSize : (documentHeader hash64 document).nodesSize.toNat =
        stringsStart hash64 document - nodesStart document := toNat_ofNat_of_lt64 (by omega)
    have hwidth : v.tableSize ≤ v.width := by
      cases v with
      | scalar s => exact Nat.zero_le _
      | block members => exact Nat.le_add_left _ _
      | array elements => exact Nat.le_add_left _ _
    omega

end

/-! ## Finalized files -/

/-- Where no array has 2^32 elements, the fields of 32 bits in the file that is returned are
their numbers modulo 2^32, and the numbers themselves where the file has up to 4 GB. -/
theorem finalized_fields {env : Env} {options : Option WriterOptions} {ops : List Op}
    {w : Writer} (hrun : (Writer.create options).runs env ops = some w)
    (hclosed : w.currentScope = none) :
    ∃ document : Document, Builder.empty.run ops = some ⟨document, []⟩ ∧
      (membersArraysNarrow document → ∀ file w', finalizeToBuffer env w = .returned file w' →
        (∀ s ∈ documentStrings env.hash64 document,
          HasAt file (stringPlace env.hash64 document s) (record s)) ∧
        FieldsStore low32 (stringPlace env.hash64 document) file
          (document.inFileOrder env.hash64) ∧
        (file.length ≤ 2 ^ 32 → FieldsStore (fun n => n) (stringPlace env.hash64 document) file
          (document.inFileOrder env.hash64))) := by
  obtain ⟨⟨document, scopes⟩, hb, htracks, -, -⟩ :=
    runs_tracks (create_tracks env options) (by simp [Writer.create]) hrun
  obtain ⟨rfl, trees, hstored⟩ := htracks.stored hclosed
  refine ⟨document, hb, ?_⟩
  intro harrays file w' hreturned
  obtain ⟨hencodable, rfl⟩ := finalizeToBuffer_file hstored harrays hreturned
  rw [length_documentFile]
  have hstore := documentFile_fieldsStore hencodable.size hencodable.narrow
  exact ⟨fun s hs => stringPlace_record hs, hstore, fun hsmall =>
    hstore.exact_iff.mpr (documentFile_numbersFit hencodable.size hencodable.narrow hsmall)⟩

/-- One string in one block. -/
theorem finalized_fields_block :
    ∃ w file w', (Writer.create none).runs (.succeeding fun key => UInt64.ofNat key.length)
        [.beginBlock (.data []), .setString (.data [0x62]) [0x78], .endBlock] = some w ∧
      finalizeToBuffer (.succeeding fun key => UInt64.ofNat key.length) w = .returned file w' ∧
      FieldsStore low32 (stringPlace (fun key => UInt64.ofNat key.length)
          [([], .block [([0x62], .scalar (.string [0x78]))])]) file
        [([], .block [([0x62], .scalar (.string [0x78]))])] := by
  obtain ⟨w, hrun, hclosed, hworkers⟩ : ∃ w, (Writer.create none).runs
      (.succeeding fun key => UInt64.ofNat key.length)
      [.beginBlock (.data []), .setString (.data [0x62]) [0x78], .endBlock] = some w ∧
        w.currentScope = none ∧ WorkersFit w.options.workerCount := ⟨_, rfl, rfl, by decide⟩
  obtain ⟨document, hb, hfields⟩ := finalized_fields hrun hclosed
  obtain ⟨document', hb', hwritten⟩ := runs_written hrun hclosed
  obtain rfl : document = [([], .block [([0x62], .scalar (.string [0x78]))])] := by
    cases hb
    rfl
  cases hb.symm.trans hb'
  obtain ⟨b, w', hreturned, -⟩ :=
    (hwritten (by decide +kernel)).returned (Env.succeeding_succeeds _) hworkers
  obtain ⟨-, hstore, -⟩ := hfields ⟨⟨trivial, trivial⟩, trivial⟩ _ _ hreturned
  exact ⟨w, b.bytes, w', hrun, hreturned, hstore⟩

/-! ## A size that has wrapped -/

section

variable {n : Nat} (hlt : n < 2 ^ 30)

include hlt

end

end Hrbl
