import Hrbl.Safety
import Hrbl.Export
import Hrbl.Lib.Descent

/-!
# The graph of a file

The nodes of any file that a reader has opened, with what is below them: the values of the entries
of a block and the elements of an array, by the offsets that the file has for them.
-/

namespace Hrbl

open Lib Lib.Outcome

/-! ## Nodes -/

section

variable (r : Reader)

/-- An entry of the block at an offset. -/
def EntryOf (block : UInt64) (entry : Entry) : Prop :=
  kindAt r block = .ok .block ∧ ∃ header start, blockBodyOffsets r block = .ok (header, start) ∧
    ∃ i < header.childCount.toNat, HasAt r.base.bytes (start.toNat + i * 24) entry.encode

/-- An element of the array at an offset. -/
def ElementOf (array child : UInt64) : Prop :=
  kindAt r array = .ok .array ∧ ∃ header start, arrayBodyOffsets r array = .ok (header, start) ∧
    ∃ i < header.elementCount.toNat, HasAt r.base.bytes (start.toNat + i * 8) (le64 child)

/-- An entry of the root index. -/
def RootEntry (entry : Entry) : Prop :=
  ∃ i < r.header.rootCount.toNat,
    HasAt r.base.bytes (r.header.rootIndexOffset.toNat + i * 24) entry.encode

/-- One node is below the other. -/
inductive Child : UInt64 → UInt64 → Prop where
  | entry {block : UInt64} {entry : Entry} : EntryOf r block entry → Child block entry.valueOffset
  | element {array child : UInt64} : ElementOf r array child → Child array child

/-- The value of an entry of the root index. -/
def IsRoot (offset : UInt64) : Prop := ∃ entry, RootEntry r entry ∧ entry.valueOffset = offset

/-- The key of an entry is in the file. -/
def KeyInside (entry : Entry) : Prop :=
  entry.keyLength = 0 ∨
    entry.keyPoolOffset.toNat + 4 + entry.keyLength.toNat ≤ r.base.bytes.length

end

variable {r : Reader}

/-- What has something below it is a container. -/
theorem Child.container {parent child : UInt64} (h : Child r parent child) :
    kindAt r parent = .ok .block ∨ kindAt r parent = .ok .array := by
  cases h with
  | entry h => exact .inl h.1
  | element h => exact .inr h.1

theorem Child.of_block {block c : UInt64} (h : Child r block c)
    (hkind : kindAt r block = .ok .block) :
    ∃ entry, EntryOf r block entry ∧ entry.valueOffset = c := by
  cases h with
  | entry h => exact ⟨_, h, rfl⟩
  | element h =>
    rw [h.1] at hkind
    cases hkind

theorem Child.of_array {array c : UInt64} (h : Child r array c)
    (hkind : kindAt r array = .ok .array) : ElementOf r array c := by
  cases h with
  | entry h =>
    rw [h.1] at hkind
    cases hkind
  | element h => exact h

/-- The offsets in the file. -/
def insideOffsets (r : Reader) : Finset UInt64 :=
  (Finset.range r.base.bytes.length).image UInt64.ofNat

theorem card_insideOffsets_le (r : Reader) :
    (insideOffsets r).card ≤ r.base.bytes.length := by
  have hle := Finset.card_image_le (s := Finset.range r.base.bytes.length) (f := UInt64.ofNat)
  rwa [Finset.card_range] at hle

/-- What has something below it is in the file. -/
theorem Child.mem_insideOffsets {parent child : UInt64} (h : Child r parent child) :
    parent ∈ insideOffsets r := by
  have hlt : parent.toNat < r.base.bytes.length := by
    rcases h.container with hkind | hkind
    · exact lt_length_of_kindAt hkind
    · exact lt_length_of_kindAt hkind
  refine Finset.mem_image.mpr ⟨parent.toNat, Finset.mem_range.mpr hlt, ?_⟩
  exact UInt64.ofNat_toNat

/-- A chain of nodes that is longer than the file has bytes goes around. -/
theorem cyclic_of_long {a : UInt64} {below : List UInt64}
    (h : Descent (Child r) (IsRoot r) a below) (hlong : r.base.bytes.length < below.length) :
    Cyclic (Child r) (IsRoot r) := by
  refine h.cyclic (fun b c hchild => hchild.mem_insideOffsets) ?_
  exact Nat.lt_of_le_of_lt (card_insideOffsets_le r) hlong

/-! ## Loads -/

theorem loadU64_eq_ok {b : Buffer} {offset x : UInt64} :
    loadU64 b offset = .ok x ↔ HasAt b.bytes offset.toNat (le64 x) := by
  constructor
  · intro h
    obtain ⟨raw, hraw, hx⟩ := bind_eq_ok.mp h
    obtain ⟨hat, hlength⟩ := hasAt_of_load hraw
    cases hx
    rw [le64_u64At (by omega), List.drop_zero, List.take_of_length_le hlength.le]
    exact hat
  · exact loadU64_of_hasAt

/-! ## Roots -/

/-- An entry of the root index is one of those that the index holds. -/
theorem RootsListed.mem {r : Reader} {entries : List Entry}
    (h : RootsListed r.base r.header entries)
    (hstart : r.header.rootIndexOffset = rootIndexStart) {entry : Entry} (hentry : RootEntry r entry) :
    entry ∈ entries := by
  obtain ⟨i, hi, hat⟩ := hentry
  rw [← h.count_eq] at hi
  have hlisted : HasAt r.base.bytes (128 + i * 24) entries[i].encode :=
    hasAt_entry h.held (List.getElem?_eq_getElem hi)
  have hplace : (UInt64.ofNat (128 + i * 24)).toNat = 128 + i * 24 := by
    have hle := le_length_of_hasAt_entry hlisted
    have hlt := r.base.length_lt
    exact toNat_ofNat_of_lt64 (by omega)
  rw [hstart, show rootIndexStart.toNat = 128 from rfl, ← hplace] at hat
  rw [← hplace] at hlisted
  have heq := (loadEntry_eq_ok.mpr hat).symm.trans (loadEntry_eq_ok.mpr hlisted)
  cases heq
  exact List.getElem_mem hi

theorem RootsHeld.mem {r : Reader} {entries : List Entry} (h : RootsHeld r.base r.header entries)
    (hstart : r.header.rootIndexOffset = rootIndexStart) {entry : Entry} (hentry : RootEntry r entry) :
    entry ∈ entries := h.listed.mem hstart hentry

/-! ## Copies of entries -/

/-- The entries that are copied are those from the offset on, each of them once. -/
theorem copyEntries_lists {α : Type} {copy : UInt64 → Entry → α} {count : Nat} {offset : UInt64}
    {items : List α} (h : copyEntries r copy count offset = .ok items) :
    (∀ item ∈ items, ∃ i < count, ∃ place entry,
        HasAt r.base.bytes (offset.toNat + i * 24) entry.encode ∧ copy place entry = item) ∧
      ∀ i < count, ∀ entry, HasAt r.base.bytes (offset.toNat + i * 24) entry.encode →
        ∃ place, copy place entry ∈ items := by
  -- the entry that is copied first is the one at the offset, and the others have moved by one
  induction count generalizing offset items with
  | zero =>
    cases h
    refine ⟨fun item hitem => ?_, fun i hi => ?_⟩
    · cases hitem
    · omega
  | succ count ih =>
    obtain ⟨raw, hraw, h⟩ := bind_eq_ok.mp h
    obtain ⟨rest, hrest, h⟩ := bind_eq_ok.mp h
    cases h
    have hat := loadEntry_eq_ok.mp hraw
    have hlength := r.base.length_lt
    have hinside := le_length_of_hasAt_entry hat
    have hwidth : rootEntrySize.toNat = 24 := rfl
    have hnext : (offset + rootEntrySize).toNat = offset.toNat + 24 := by
      rw [UInt64.toNat_add, hwidth]
      omega
    obtain ⟨hitems, hentries⟩ := ih hrest
    rw [hnext] at hitems hentries
    constructor
    · intro item hitem
      rcases List.mem_cons.mp hitem with rfl | hitem
      · exact ⟨0, Nat.succ_pos count, offset, raw, by simpa using hat, rfl⟩
      · obtain ⟨i, hi, place, entry, hplace, hcopy⟩ := hitems item hitem
        refine ⟨i + 1, Nat.succ_lt_succ hi, place, entry, ?_, hcopy⟩
        rwa [Nat.succ_mul, Nat.add_comm (i * 24), ← Nat.add_assoc]
    · intro i hi entry hentry
      cases i with
      | zero =>
        have hload : loadEntry r.base offset = .ok entry :=
          loadEntry_eq_ok.mpr (by simpa using hentry)
        rw [hraw] at hload
        cases hload
        exact ⟨offset, List.mem_cons_self⟩
      | succ i =>
        rw [Nat.succ_mul, Nat.add_comm (i * 24), ← Nat.add_assoc] at hentry
        obtain ⟨place, hmem⟩ := hentries i (Nat.lt_of_succ_lt_succ hi) entry hentry
        exact ⟨place, List.mem_cons_of_mem _ hmem⟩

/-- The copies for a block are those of its entries. -/
theorem copyEntries_block {α : Type} {copy : UInt64 → Entry → α} {block start : UInt64}
    {header : BlockHeader} {items : List α} (hkind : kindAt r block = .ok .block)
    (hbody : blockBodyOffsets r block = .ok (header, start))
    (h : copyEntries r copy header.childCount.toNat start = .ok items) :
    (∀ item ∈ items, ∃ place entry, EntryOf r block entry ∧ copy place entry = item) ∧
      ∀ entry, EntryOf r block entry → ∃ place, copy place entry ∈ items := by
  obtain ⟨hitems, hentries⟩ := copyEntries_lists h
  constructor
  · intro item hitem
    obtain ⟨i, hi, place, entry, hat, hcopy⟩ := hitems item hitem
    exact ⟨place, entry, ⟨hkind, header, start, hbody, i, hi, hat⟩, hcopy⟩
  · rintro entry ⟨-, header', start', hbody', i, hi, hat⟩
    rw [hbody] at hbody'
    cases hbody'
    exact hentries i hi entry hat

/-- The copies for the root index are those of its entries. -/
theorem copyEntries_root {α : Type} {copy : UInt64 → Entry → α} {items : List α}
    (h : copyEntries r copy r.header.rootCount.toNat r.header.rootIndexOffset = .ok items) :
    (∀ item ∈ items, ∃ place entry, RootEntry r entry ∧ copy place entry = item) ∧
      ∀ entry, RootEntry r entry → ∃ place, copy place entry ∈ items := by
  obtain ⟨hitems, hentries⟩ := copyEntries_lists h
  constructor
  · intro item hitem
    obtain ⟨i, hi, place, entry, hat, hcopy⟩ := hitems item hitem
    exact ⟨place, entry, ⟨i, hi, hat⟩, hcopy⟩
  · rintro entry ⟨i, hi, hat⟩
    exact hentries i hi entry hat

/-- Entries of a table that is in the file can be copied. -/
theorem copyEntries_safe {α : Type} {copy : UInt64 → Entry → α} {count : Nat} {offset : UInt64}
    (h : offset.toNat + count * 24 ≤ r.base.bytes.length) :
    Safe (copyEntries r copy count offset) := by
  have hlength := r.base.length_lt
  have hwidth : rootEntrySize.toNat = 24 := rfl
  induction count generalizing offset with
  | zero => exact safe_ok _
  | succ count ih =>
    refine Safe.bind ?_ ?_
    · rw [loadEntry]
      exact Safe.bind (load_safe.mpr (by omega)) fun _ _ => safe_ok _
    · intro raw _
      refine Safe.bind (ih ?_) fun _ _ => safe_ok _
      rw [UInt64.toNat_add, hwidth]
      omega

end Hrbl
