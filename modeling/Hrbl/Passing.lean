import Hrbl.Graph

/-!
# What a path passes

The tables that a file has, by its bytes alone, and the offsets that they store for the steps of a
path. A lookup follows stored offsets only, and in tables that are in order it follows each of
them; so whether it stays among the nodes is a matter of these offsets.
-/

namespace Hrbl

open Lib Lib.Outcome

/-! ## Tables -/

/-- A container of this kind, by its kind byte, with a table inside the file: the header is aligned
behind the kind byte, and the places of the table are behind the header. -/
structure TableAt (r : Reader) (kind : Kind) (width : Nat) (offset start : UInt64)
    (count : Nat) : Prop where
  kind : HasAt r.base.bytes offset.toNat [kind.byte]
  place : start.toNat = alignUpNat (offset.toNat + 1) 8 + 8
  length : (u32At r.base.bytes (alignUpNat (offset.toNat + 1) 8)).toNat = count
  inside : start.toNat + count * width ≤ r.base.bytes.length

section

variable {r : Reader} {offset start : UInt64}

/-- The number in front of a table. -/
theorem u32At_take {bytes : Bytes} {place : Nat} :
    u32At ((bytes.drop place).take 8) 0 = u32At bytes place := by
  rw [u32At, u32At, List.drop_zero, List.take_take]
  rfl

/-- Where the header of a container is. -/
theorem toNat_header (h : ¬offset ≥ r.size) :
    (alignUp (offset + 1) 8).toNat = alignUpNat (offset.toNat + 1) 8 := by
  obtain ⟨hstart, hsmall⟩ := toNat_body h
  have hbound := (alignUp (offset + 1) 8).toNat_lt
  have height : (8 : UInt64).toNat = 8 := rfl
  rw [UInt64.toNat_add, height] at hstart
  omega

theorem TableAt.unique {kind : Kind} {width count count' : Nat} {start' : UInt64}
    (h : TableAt r kind width offset start count)
    (h' : TableAt r kind width offset start' count') : start = start' ∧ count = count' := by
  constructor
  · exact UInt64.toNat_inj.mp (h.place.trans h'.place.symm)
  · exact h.length.symm.trans h'.length

/-- What the checks of a container have seen. -/
theorem tableAt_of_checks {kind : Kind} {raw : Bytes} {width : Nat}
    (hoffset : ¬offset ≥ r.size) (hbyte : loadByte r.base offset = .ok kind.byte)
    (hraw : load r.base (alignUp (offset + 1) 8) 8 = .ok raw)
    (hinside : (alignUp (offset + 1) 8 + 8).toNat + (u32At raw 0).toNat * width ≤
      r.base.bytes.length) :
    TableAt r kind width offset (alignUp (offset + 1) 8 + 8) (u32At raw 0).toNat := by
  obtain ⟨hstart, -⟩ := toNat_body hoffset
  have hbody := toNat_header hoffset
  obtain ⟨-, rfl⟩ := load_eq_ok hraw
  refine ⟨loadByte_eq_ok.mp hbyte, hstart, ?_, hinside⟩
  rw [u32At_take, hbody]

/-- A block that the reader takes for one has a table. -/
theorem tableAt_of_blockBodyOffsets {header : BlockHeader}
    (h : blockBodyOffsets r offset = .ok (header, start)) :
    TableAt r .block 24 offset start header.childCount.toNat := by
  have hinside := blockBodyOffsets_inside h
  unfold blockBodyOffsets at h
  split at h
  · cases h
  rename_i hoffset
  obtain ⟨byte, hbyte, h⟩ := bind_eq_ok.mp h
  split at h
  · cases h
  rename_i hkind
  rw [not_not.mp hkind] at hbyte
  dsimp only at h
  split at h
  · cases h
  obtain ⟨loaded, hloaded, h⟩ := bind_eq_ok.mp h
  split at h
  · cases h
  cases h
  obtain ⟨raw, hraw, heq⟩ := bind_eq_ok.mp hloaded
  cases heq
  exact tableAt_of_checks hoffset hbyte hraw hinside

theorem tableAt_of_arrayBodyOffsets {header : ArrayHeader}
    (h : arrayBodyOffsets r offset = .ok (header, start)) :
    TableAt r .array 8 offset start header.elementCount.toNat := by
  have hinside := arrayBodyOffsets_inside h
  unfold arrayBodyOffsets at h
  split at h
  · cases h
  rename_i hoffset
  obtain ⟨byte, hbyte, h⟩ := bind_eq_ok.mp h
  split at h
  · cases h
  rename_i hkind
  rw [not_not.mp hkind] at hbyte
  dsimp only at h
  split at h
  · cases h
  obtain ⟨loaded, hloaded, h⟩ := bind_eq_ok.mp h
  split at h
  · cases h
  cases h
  obtain ⟨raw, hraw, heq⟩ := bind_eq_ok.mp hloaded
  cases heq
  exact tableAt_of_checks hoffset hbyte hraw hinside

/-- The checks of a container let a table pass. -/
theorem TableAt.checks {kind : Kind} {width count : Nat}
    (h : TableAt r kind width offset start count) :
    ¬offset ≥ r.size ∧ loadByte r.base offset = .ok kind.byte ∧
      ¬alignUp (offset + 1) 8 + 8 > r.size ∧ alignUp (offset + 1) 8 + 8 = start ∧
      ∃ raw, load r.base (alignUp (offset + 1) 8) 8 = .ok raw ∧ (u32At raw 0).toNat = count := by
  have hlt := r.base.length_lt
  have hkind := h.kind.le_length (by simp)
  rw [List.length_singleton] at hkind
  have hoffset : ¬offset ≥ r.size := by
    rw [ge_iff_le, UInt64.not_le, UInt64.lt_iff_toNat_lt, Buffer.toNat_size]
    omega
  obtain ⟨hstart, hsmall⟩ := toNat_body hoffset
  have hbody := toNat_header hoffset
  have hinside := h.inside
  have hplace := h.place
  refine ⟨hoffset, loadByte_eq_ok.mpr h.kind, ?_, ?_, ?_⟩
  · rw [gt_iff_lt, UInt64.lt_iff_toNat_lt, Buffer.toNat_size, hstart]
    omega
  · exact UInt64.toNat_inj.mp (hstart.trans hplace.symm)
  · refine ⟨_, load_ok_of_le (by omega), ?_⟩
    rw [u32At_take, hbody]
    exact h.length

theorem TableAt.blockBodyOffsets {count : Nat} (h : TableAt r .block 24 offset start count) :
    ∃ header, blockBodyOffsets r offset = .ok (header, start) ∧
      header.childCount.toNat = count := by
  obtain ⟨hoffset, hbyte, hend, hstart, raw, hraw, hcount⟩ := h.checks
  have hlt := r.base.length_lt
  have hinside := h.inside
  have h24 : blockEntrySize.toNat = 24 := rfl
  refine ⟨{ childCount := u32At raw 0, entriesSizeBytes := u32At raw 4 }, ?_, hcount⟩
  have hload : loadBlockHeader r.base (alignUp (offset + 1) 8) =
      .ok { childCount := u32At raw 0, entriesSizeBytes := u32At raw 4 } := by
    rw [loadBlockHeader, hraw]
    rfl
  rw [Hrbl.blockBodyOffsets, if_neg hoffset, hbyte, ok_bind, if_neg (not_not.mpr rfl)]
  simp only
  rw [if_neg hend, hload, ok_bind, hstart]
  refine if_neg ?_
  rw [gt_iff_lt, UInt64.lt_iff_toNat_lt, UInt64.toNat_add, UInt64.toNat_mul,
    UInt32.toNat_toUInt64, h24, hcount, Buffer.toNat_size]
  omega

theorem TableAt.arrayBodyOffsets {count : Nat} (h : TableAt r .array 8 offset start count) :
    ∃ header, arrayBodyOffsets r offset = .ok (header, start) ∧
      header.elementCount.toNat = count := by
  obtain ⟨hoffset, hbyte, hend, hstart, raw, hraw, hcount⟩ := h.checks
  have hlt := r.base.length_lt
  have hinside := h.inside
  have h8 : arrayElementSize.toNat = 8 := rfl
  refine ⟨{ elementCount := u32At raw 0, bodySizeBytes := u32At raw 4 }, ?_, hcount⟩
  have hload : loadArrayHeader r.base (alignUp (offset + 1) 8) =
      .ok { elementCount := u32At raw 0, bodySizeBytes := u32At raw 4 } := by
    rw [loadArrayHeader, hraw]
    rfl
  rw [Hrbl.arrayBodyOffsets, if_neg hoffset, hbyte, ok_bind, if_neg (not_not.mpr rfl)]
  simp only
  rw [if_neg hend, hload, ok_bind, hstart]
  refine if_neg ?_
  rw [gt_iff_lt, UInt64.lt_iff_toNat_lt, UInt64.toNat_add, UInt64.toNat_mul,
    UInt32.toNat_toUInt64, h8, hcount, Buffer.toNat_size]
  omega

end

/-! ## Stored offsets -/

/-- The entry of a table is this one's: it has the hash of the key, and the key. -/
def EntryFor (hash64 : Bytes → UInt64) (r : Reader) (key : Bytes) (entry : Entry) : Prop :=
  entry.keyHash64 = hash64 key ∧ KeyHeld r entry key

/-- The container at an offset stores an offset for a step. -/
inductive Stores (hash64 : Bytes → UInt64) (r : Reader) (offset : UInt64) : Step → UInt64 → Prop
  | key {key : Bytes} {start : UInt64} {count : Nat} {entry : Entry}
      (table : TableAt r .block 24 offset start count) (mem : entry ∈ entriesAt r start count)
      (named : EntryFor hash64 r key entry) : Stores hash64 r offset (.key key) entry.valueOffset
  | index {index : UInt32} {start : UInt64} {count : Nat} {child : UInt64}
      (table : TableAt r .array 8 offset start count) (below : index.toNat < count)
      (element : HasAt r.base.bytes (start.toNat + index.toNat * 8) (le64 child)) :
      Stores hash64 r offset (.index index) child

/-- The root index stores an offset for a key. -/
def StoresRoot (hash64 : Bytes → UInt64) (r : Reader) (key : Bytes) (child : UInt64) : Prop :=
  ∃ entry ∈ entriesAt r r.header.rootIndexOffset r.header.rootCount.toNat,
    EntryFor hash64 r key entry ∧ entry.valueOffset = child

/-- Some steps down from an offset, by stored offsets. -/
def StoredBelow (hash64 : Bytes → UInt64) (r : Reader) : UInt64 → List Step → UInt64 → Prop
  | offset, [], found => found = offset
  | offset, step :: steps, found =>
    ∃ next, Stores hash64 r offset step next ∧ StoredBelow hash64 r next steps found

/-- The offsets that a file stores for the steps of a path, from the root index on. -/
def StoredLeads (hash64 : Bytes → UInt64) (r : Reader) : List Step → UInt64 → Prop
  | .key key :: steps, found =>
    ∃ root, StoresRoot hash64 r key root ∧ StoredBelow hash64 r root steps found
  | _, _ => False

/-- The hashes in the table of a block increase. -/
def BlockOrdered (r : Reader) (offset : UInt64) : Prop :=
  ∀ start count, TableAt r .block 24 offset start count →
    (entriesAt r start count).Pairwise fun a b => a.keyHash64 < b.keyHash64

/-- There is a node at the offset: it is in the nodes section and has a kind byte. -/
def IsNode (r : Reader) (offset : UInt64) : Prop :=
  InNodes r offset ∧ ∃ kind : Kind, HasAt r.base.bytes offset.toNat [kind.byte]

section

variable {hash64 : Bytes → UInt64} {r : Reader}

theorem Kind.byte_of_ofByte {byte : UInt8} {kind : Kind} (h : Kind.ofByte byte = some kind) :
    byte = kind.byte := by
  unfold Kind.ofByte at h
  split at h
  all_goals cases h <;> rfl

theorem isNode_iff {offset : UInt64} : IsNode r offset ↔ ∃ kind, kindAt r offset = .ok kind := by
  constructor
  · rintro ⟨hin, kind, hbyte⟩
    exact ⟨kind, kindAt_eq_ok.mpr ⟨hin, _, loadByte_eq_ok.mpr hbyte, Kind.ofByte_byte kind⟩⟩
  · rintro ⟨kind, hkind⟩
    obtain ⟨hin, byte, hbyte, hof⟩ := kindAt_eq_ok.mp hkind
    obtain rfl : byte = kind.byte := Kind.byte_of_ofByte hof
    exact ⟨hin, kind, loadByte_eq_ok.mp hbyte⟩

/-! ## What a lookup follows -/

section

variable {start entryCount : UInt64}
  (hinside : start.toNat + entryCount.toNat * 24 ≤ r.base.bytes.length) {key : Bytes}

include hinside

/-- A search returns an entry that is this key's. -/
theorem entryFor_of_search (hkey : key.length < 2 ^ 64) {entry : Entry}
    (h : binarySearchEntries r start entryCount (hash64 key) key = .ok entry) :
    entry ∈ entriesAt r start entryCount.toNat ∧ EntryFor hash64 r key entry :=
  binarySearchEntries_sound hinside hkey h

/-- Where the hashes increase, it returns the entry that is there. -/
theorem search_of_entryFor
    (hsorted : (entriesAt r start entryCount.toNat).Pairwise fun a b => a.keyHash64 < b.keyHash64)
    {entry : Entry} (hmem : entry ∈ entriesAt r start entryCount.toNat)
    (h : EntryFor hash64 r key entry) :
    binarySearchEntries r start entryCount (hash64 key) key = .ok entry := by
  obtain ⟨hhash, hheld⟩ := h
  have hkey : key.length < 2 ^ 64 := by
    have hlt := entry.keyLength.toNat_lt
    rw [← hheld.1]
    omega
  have hequal : ∀ e ∈ entriesAt r start entryCount.toNat, ∃ b, keyEquals r e key = .ok b :=
    fun e _ => keyEquals_ok r e hkey
  have hindexed := indexed_entriesAt hinside (hsorted.imp fun hlt => UInt64.le_of_lt hlt)
  have hanswers := binarySearchEntries_spec hindexed hequal
    (length_entriesAt r start entryCount.toNat).symm (hash64 key)
  exact hanswers.eq_of_mem hsorted hmem hhash ((keyEquals_iff hkey).mpr hheld)

end

/-- A key in it is as short as a path is. -/
def Step.Short (step : Step) : Prop := ∀ key : Bytes, step = .key key → key.length < 2 ^ 64

/-- A lookup makes a step by a stored offset. -/
theorem stores_of_childOffset {offset child : UInt64} {step : Step} (hshort : step.Short)
    (h : childOffset hash64 r offset step = .ok child) : Stores hash64 r offset step child := by
  cases step with
  | key key =>
    obtain ⟨⟨header, start⟩, hbody, h⟩ := bind_eq_ok.mp h
    obtain ⟨entry, hsearch, h⟩ := bind_eq_ok.mp h
    cases h
    have htable := tableAt_of_blockBodyOffsets hbody
    -- the search returns an entry of the table, in order or not
    obtain ⟨hmem, hnamed⟩ := entryFor_of_search
      (by rw [UInt32.toNat_toUInt64]; exact htable.inside) (hshort key rfl) hsearch
    rw [UInt32.toNat_toUInt64] at hmem
    exact .key htable hmem hnamed
  | index index =>
    obtain ⟨⟨header, start⟩, hbody, h⟩ := bind_eq_ok.mp h
    dsimp only at h
    split at h
    · cases h
    rename_i hbelow
    have htable := tableAt_of_arrayBodyOffsets hbody
    have hinside : start.toNat + header.elementCount.toNat * arrayElementSize.toNat ≤ _ :=
      htable.inside
    rw [ge_iff_le, UInt32.not_le, UInt32.lt_iff_toNat_lt, ← UInt32.toNat_toUInt64] at hbelow
    have hat := loadU64_eq_ok.mp h
    rw [(toNat_table hinside hbelow).1] at hat
    rw [UInt32.toNat_toUInt64] at hat hbelow
    exact .index htable hbelow hat

/-- In a table that is in order it follows each stored offset. -/
theorem Stores.childOffset {offset child : UInt64} {step : Step}
    (h : Stores hash64 r offset step child) (hordered : BlockOrdered r offset) :
    childOffset hash64 r offset step = .ok child := by
  cases h with
  | key table hmem hnamed =>
    obtain ⟨header, hbody, hcount⟩ := table.blockBodyOffsets
    have hsorted := hordered _ _ table
    have hinside := table.inside
    rw [← hcount, ← UInt32.toNat_toUInt64] at hmem hsorted hinside
    rw [Hrbl.childOffset, blockFindOffset, hbody, ok_bind]
    simp only
    -- only in a table that is in order the search is sure to come to the entry
    rw [search_of_entryFor hinside hsorted hmem hnamed]
    rfl
  | @index index start count child table hbelow helement =>
    obtain ⟨header, hbody, hcount⟩ := table.arrayBodyOffsets
    have hinside : start.toNat + count * arrayElementSize.toNat ≤ _ := table.inside
    have hindex : index.toUInt64.toNat < count := by rwa [UInt32.toNat_toUInt64]
    obtain ⟨hplace, -⟩ := toNat_table hinside hindex
    rw [UInt32.toNat_toUInt64] at hplace
    rw [Hrbl.childOffset, arrayAtOffset, hbody, ok_bind]
    simp only
    rw [if_neg]
    · exact loadU64_eq_ok.mpr (by rw [hplace]; exact helement)
    · rw [ge_iff_le, UInt32.not_le, UInt32.lt_iff_toNat_lt, hcount]
      exact hbelow

/-- What is an array has no table of a block. -/
theorem blockOrdered_of_index {offset child : UInt64} {index : UInt32}
    (h : Hrbl.childOffset hash64 r offset (.index index) = .ok child) : BlockOrdered r offset := by
  intro start count table
  have harray := loadByte_of_childOffset h
  have hblock := loadByte_eq_ok.mpr table.kind
  cases harray.symm.trans hblock

theorem storedBelow_of_trail {offset found : UInt64} {steps : List Step}
    (hshort : ∀ step ∈ steps, step.Short) (h : Trail hash64 r offset steps found) :
    StoredBelow hash64 r offset steps found := by
  induction h with
  | nil => exact rfl
  | cons head tail ih =>
    obtain ⟨hstep, hsteps⟩ := List.forall_mem_cons.mp hshort
    exact ⟨_, stores_of_childOffset hstep head, ih hsteps⟩

/-- Where the tables on the way are in order, the steps lead there. -/
theorem StoredBelow.trail {offset found : UInt64} {steps : List Step}
    (h : StoredBelow hash64 r offset steps found)
    (hordered : ∀ before last, before <+: steps → StoredBelow hash64 r offset before last →
      BlockOrdered r last) : Trail hash64 r offset steps found := by
  induction steps generalizing offset with
  | nil =>
    obtain rfl : found = offset := h
    exact .nil
  | cons step steps ih =>
    obtain ⟨next, hstep, hrest⟩ := h
    have hhere : BlockOrdered r offset := hordered [] offset List.nil_prefix rfl
    refine .cons (hstep.childOffset hhere) (ih hrest fun before last hbefore hlast => ?_)
    exact hordered (step :: before) last (List.prefix_cons_inj step |>.mpr hbefore)
      ⟨next, hstep, hlast⟩

/-! ## Verified files -/

section

variable {b : Buffer} (hverify : verifyBuffer hash64 b = .ok .ok) (hopen : openBuffer true b = .ok r)

include hverify hopen

/-- The root index of a verified file is a table that is in order. -/
theorem rootTable_of_verified :
    r.header.rootIndexOffset.toNat + r.header.rootCount.toNat * 24 ≤ r.base.bytes.length ∧
      (entriesAt r r.header.rootIndexOffset r.header.rootCount.toNat).Pairwise
        fun a b => a.keyHash64 < b.keyHash64 := by
  obtain ⟨hstart, entries, hheld, hcount, hsorted, -⟩ := rootsHeld_of_verifyBuffer hverify hopen
  have hplace : r.header.rootIndexOffset.toNat = 128 := by
    rw [hstart]
    rfl
  have hentries : entriesAt r r.header.rootIndexOffset r.header.rootCount.toNat = entries := by
    refine List.ext_getElem (by rw [length_entriesAt, hcount]) fun i hi hi' => ?_
    have hat : HasAt r.base.bytes (128 + i * 24) entries[i].encode :=
      hasAt_entry hheld (List.getElem?_eq_getElem hi')
    have htake := List.prefix_iff_eq_take.mp hat
    rw [Entry.length_encode] at htake
    simp only [entriesAt, List.getElem_map, List.getElem_range, hplace]
    rw [← htake]
    exact Entry.decode_of_hasAt (HasAt.self _)
  rw [hentries]
  refine ⟨?_, hsorted⟩
  rw [hplace, ← hcount]
  rcases Nat.eq_zero_or_pos entries.length with hzero | hpos
  · obtain ⟨rfl, henveloped⟩ := openBuffer_eq_ok.mp hopen
    have hsize := henveloped.size_le
    omega
  · have hlast := hasAt_entry hheld (List.getElem?_eq_getElem (Nat.sub_one_lt_of_lt hpos))
    have hle := le_length_of_hasAt_entry hlast
    omega

theorem storesRoot_iff {key : Bytes} (hkey : key.length < 2 ^ 64) {child : UInt64} :
    findRootOffset hash64 r key = .ok child ↔ StoresRoot hash64 r key child := by
  obtain ⟨hinside, hsorted⟩ := rootTable_of_verified hverify hopen
  constructor
  · intro h
    obtain ⟨entry, hsearch, heq⟩ := bind_eq_ok.mp h
    cases heq
    obtain ⟨hmem, hnamed⟩ := entryFor_of_search hinside hkey hsearch
    exact ⟨entry, hmem, hnamed, rfl⟩
  · rintro ⟨entry, hmem, hnamed, rfl⟩
    rw [findRootOffset, search_of_entryFor hinside hsorted hmem hnamed]
    rfl

theorem storedLeads_of_leads {steps : List Step} (hshort : ∀ step ∈ steps, step.Short)
    {found : UInt64} (h : Leads hash64 r steps found) : StoredLeads hash64 r steps found := by
  cases steps with
  | nil => exact h.elim
  | cons first steps =>
    obtain ⟨hfirst, hsteps⟩ := List.forall_mem_cons.mp hshort
    cases first with
    | index index => exact h.elim
    | key key =>
      obtain ⟨root, hroot, htrail⟩ := h
      exact ⟨root, (storesRoot_iff hverify hopen (hfirst key rfl)).mp hroot,
        storedBelow_of_trail hsteps htrail⟩

theorem StoredLeads.leads {steps : List Step} (hshort : ∀ step ∈ steps, step.Short)
    {found : UInt64} (h : StoredLeads hash64 r steps found)
    (hordered : ∀ before last, before <+: steps → StoredLeads hash64 r before last →
      BlockOrdered r last) : Leads hash64 r steps found := by
  cases steps with
  | nil => exact h.elim
  | cons first steps =>
    cases first with
    | index index => exact h.elim
    | key key =>
      obtain ⟨hfirst, -⟩ := List.forall_mem_cons.mp hshort
      obtain ⟨root, hroot, hbelow⟩ := h
      refine ⟨root, (storesRoot_iff hverify hopen (hfirst key rfl)).mpr hroot, ?_⟩
      refine hbelow.trail fun before last hbefore hlast => ?_
      exact hordered (.key key :: before) last ((List.prefix_cons_inj _).mpr hbefore)
        ⟨root, hroot, hlast⟩

end

/-! ## Lengths -/

theorem length_le_of_cutSegment {path after segment : Bytes}
    (h : cutSegment path = some (.key segment, after)) : segment.length ≤ path.length := by
  cases path with
  | nil => cases h
  | cons c rest =>
    have htake : ∀ (p : UInt8 → Bool) (text : Bytes), (text.takeWhile p).length ≤ text.length :=
      fun p text => (List.takeWhile_sublist p).length_le
    simp only [cutSegment] at h
    split at h
    · split at h
      · cases h
      · split at h <;> cases h
    · split at h
      · split at h
        · cases h
        · cases h
          exact (htake _ rest).trans (Nat.le_succ _)
      · cases h
        exact htake _ (c :: rest)

/-- The keys of a path are not longer than it is. -/
theorem length_le_of_splitPath {path : Bytes} {steps : List Step}
    (h : splitPath path = some steps) {key : Bytes} (hkey : .key key ∈ steps) :
    key.length ≤ path.length := by
  -- by induction on the path, with the cases of `splitPath`
  fun_induction splitPath path generalizing steps with
  | case1 =>
    cases h
    cases hkey
  | case2 tail ih => exact (ih h hkey).trans (Nat.le_succ _)
  | case3 => cases h
  | case4 c tail hdot index after hcut hshorter ih =>
    obtain ⟨rest, hrest, rfl⟩ := Option.map_eq_some_iff.mp h
    rcases List.mem_cons.mp hkey with heq | hmem
    · cases heq
    · exact (ih hrest hmem).trans hshorter.le
  | case5 => cases h
  | case6 c tail hdot segment after hcut hshorter hnonempty ih =>
    obtain ⟨rest, hrest, rfl⟩ := Option.map_eq_some_iff.mp h
    rcases List.mem_cons.mp hkey with heq | hmem
    · cases heq
      exact length_le_of_cutSegment hcut
    · exact (ih hrest hmem).trans hshorter.le

theorem short_of_splitPath {path : Bytes} {steps : List Step} (h : splitPath path = some steps)
    (hlength : path.length < 2 ^ 64) : ∀ step ∈ steps, step.Short := by
  rintro step hstep key rfl
  exact (length_le_of_splitPath h hstep).trans_lt hlength

/-! ## Paths -/

/-- Where a step leads to a node by stored offsets, the container it is made in is in the nodes
section. -/
def Kept (hash64 : Bytes → UInt64) (r : Reader) (steps : List Step) (step : Step) : Prop :=
  ∀ offset child, StoredLeads hash64 r steps offset → Stores hash64 r offset step child →
    IsNode r child → InNodes r offset

/-- A lookup that succeeds with a step more passes a container that is found itself. -/
def FindsContainer (hash64 : Bytes → UInt64) (r : Reader) (p q : Bytes) (step : Step) : Prop :=
  ∀ value, find hash64 r p = .ok value →
    ∃ container, find hash64 r q = .ok container ∧ container.kind = step.container

/-- In a verified file, a lookup passes a container that is found itself wherever the offset that
is stored for the container is in the nodes section, or the step that is stored from there leads
to no node. If the tables of the blocks on the way are in order, only then. -/
theorem find_passes_nodes {b : Buffer} (hverify : verifyBuffer hash64 b = .ok .ok)
    (hopen : openBuffer true b = .ok r) {p q : Bytes} {steps : List Step} {step : Step}
    (hlength : p.length < 2 ^ 64) (hne : steps ≠ []) (hq : splitPath q = some steps)
    (hp : splitPath p = some (steps ++ [step])) :
    (Kept hash64 r steps step → FindsContainer hash64 r p q step) ∧
    ((∀ before last, before <+: steps → StoredLeads hash64 r before last →
        BlockOrdered r last) →
      (FindsContainer hash64 r p q step ↔ Kept hash64 r steps step)) := by
  have hshort := short_of_splitPath hp hlength
  have hsteps : ∀ step ∈ steps, step.Short := fun step h => hshort step (List.mem_append_left _ h)
  have hlast : step.Short := hshort step (List.mem_append_right _ List.mem_cons_self)
  have hkept : Kept hash64 r steps step → FindsContainer hash64 r p q step := by
    intro hkept value hvalue
    obtain ⟨steps', hp', hleads, hkind⟩ := find_eq_ok.mp hvalue
    cases hp.symm.trans hp'
    obtain ⟨offset, hleads, hchild⟩ := (leads_concat hne).mp hleads
    have hstored := storedLeads_of_leads hverify hopen hsteps hleads
    have hin : InNodes r offset :=
      hkept offset _ hstored (stores_of_childOffset hlast hchild) (isNode_iff.mpr ⟨_, hkind⟩)
    refine ⟨⟨offset, step.container⟩, ?_, rfl⟩
    exact find_eq_ok.mpr ⟨steps, hq, hleads, (kindAt_container hchild).mpr hin⟩
  refine ⟨hkept, fun hordered => ⟨?_, hkept⟩⟩
  intro hfinds offset child hstored hstores hnode
  obtain ⟨kind, hkind⟩ := isNode_iff.mp hnode
  -- in tables that are in order, the stored offsets are the ones that the lookup follows
  have hleads := hstored.leads hverify hopen hsteps hordered
  have hchild := hstores.childOffset (hordered steps offset List.prefix_rfl hstored)
  have hfound : find hash64 r p = .ok ⟨child, kind⟩ :=
    find_eq_ok.mpr ⟨_, hp, (leads_concat hne).mpr ⟨offset, hleads, hchild⟩, hkind⟩
  obtain ⟨container, hcontainer, -⟩ := hfinds _ hfound
  obtain ⟨steps', hq', hleads', hkind'⟩ := find_eq_ok.mp hcontainer
  cases hq.symm.trans hq'
  rw [hleads.unique hleads']
  exact (kindAt_eq_ok.mp hkind').1

end

/-- In the file with an array in a string, the step to that array is made in the nodes section
and the step behind it is not. -/
theorem find_passes_nodes_detour : ∃ (b : Buffer) (r : Reader),
    verifyBuffer (fun _ => 0) b = .ok .ok ∧ openBuffer true b = .ok r ∧
    FindsContainer (fun _ => 0) r [0x61, 0x5B, 0x30, 0x5D] [0x61] (.index 0) ∧
    ¬FindsContainer (fun _ => 0) r [0x61, 0x5B, 0x30, 0x5D, 0x5B, 0x30, 0x5D]
      [0x61, 0x5B, 0x30, 0x5D] (.index 0) := by
  obtain ⟨b, hbytes⟩ : ∃ b : Buffer, b.bytes = (detour fun _ => 0).file fun _ => 0 :=
    (detour_sound fun _ => 0).exists_buffer
  have hverify := (detour_sound fun _ => 0).verified hbytes
  have hopen := Parts.opened hbytes
  let r : Reader := ⟨b, (detour fun _ => 0).header fun _ => 0⟩
  obtain ⟨hroot, hleads, hchild, hkind, hin, hout⟩ := detour_leads hbytes
  obtain ⟨hfirst, hsecond⟩ := detour_paths
  have hkey : RendersPath [.key [0x61]] [0x61] :=
    ⟨[0x61], [], ⟨by decide, .inl (by decide)⟩, rfl, rfl⟩
  have hshort : ∀ step ∈ [Step.key [0x61], .index 0] ++ [.index 0], step.Short :=
    short_of_splitPath hsecond (by decide)
  have hstep : childOffset (fun _ => 0) r 159 (.index 0) = .ok 279 := by
    obtain ⟨last, hlast, hstep⟩ := (leads_concat (List.cons_ne_nil _ [])).mp hleads
    rwa [hlast.unique hroot] at hstep
  -- the one offset that is stored for `a`, and the one that is stored for its element
  have hone : ∀ offset, StoredLeads (fun _ => 0) r [.key [0x61]] offset → offset = 159 := by
    rintro offset ⟨root, hstored, rfl⟩
    have hfound := (storesRoot_iff hverify hopen (by decide)).mpr hstored
    have hlead : Leads (fun _ => 0) r [.key [0x61]] offset := ⟨offset, hfound, .nil⟩
    exact hlead.unique hroot
  have hordered : ∀ before last, before <+: [Step.key [0x61], .index 0] →
      StoredLeads (fun _ => 0) r before last → BlockOrdered r last := by
    intro before last hbefore hstored
    have harray := blockOrdered_of_index hstep
    rcases List.prefix_cons_iff.mp hbefore with rfl | ⟨rest, rfl, hrest⟩
    · exact hstored.elim
    rcases List.prefix_cons_iff.mp hrest with rfl | ⟨more, rfl, hmore⟩
    · rw [hone last hstored]
      exact harray
    · obtain rfl := List.prefix_nil.mp hmore
      obtain ⟨root, hroots, next, hnext, rfl⟩ := hstored
      rw [hone root ⟨root, hroots, rfl⟩] at hnext
      have hsame := (hnext.childOffset harray).symm.trans hstep
      cases hsame
      exact blockOrdered_of_index hchild
  refine ⟨b, r, hverify, hopen, ?_, ?_⟩
  · refine (find_passes_nodes hverify hopen (by decide) (List.cons_ne_nil _ _) hkey.splitPath
      hfirst).1 ?_
    intro offset child hstored _ _
    rw [hone offset hstored]
    exact hin
  · intro hfinds
    have hkept := ((find_passes_nodes hverify hopen (by decide) (List.cons_ne_nil _ _) hfirst
      hsecond).2 hordered).mp hfinds
    have hstored := storedLeads_of_leads hverify hopen
      (fun step h => hshort step (List.mem_append_left _ h)) hleads
    have hstores : Stores (fun _ => 0) r 279 (.index 0) 256 :=
      stores_of_childOffset (fun key heq => by cases heq) hchild
    exact hout (hkept 279 256 hstored hstores (isNode_iff.mpr ⟨_, hkind⟩))

end Hrbl
