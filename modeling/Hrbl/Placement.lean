import Hrbl.Contents
import Hrbl.Lookup
import Hrbl.Reaching

/-!
# What the file of a document holds

The nodes of a file are an image at a place, and the reader finds in them the values the
image was made of: a kind byte where the writer says the value is, its body right after it,
the entries of a block in the order of their hashes. Read from the root index on, that is
the document.
-/

namespace Hrbl

open Lib Lib.Outcome

/-- The nodes section of an open file, and where the strings are that it refers to. -/
structure Placed (r : Reader) (base size : Nat) (addr : Bytes → UInt32)
    (strings : List Bytes) : Prop where
  small : r.base.bytes.length < 2 ^ 32
  base_eq : r.header.nodesOffset.toNat = base
  size_eq : r.header.nodesSize.toNat = size
  inside : base + size ≤ r.base.bytes.length
  aligned : 8 ∣ base
  string : ∀ s ∈ strings, (addr s).toNat + 4 + s.length ≤ r.base.bytes.length ∧
    HasAt r.base.bytes ((addr s).toNat + 4) s

/-! ## Places -/

section

variable {r : Reader} {base size : Nat} {addr : Bytes → UInt32} {strings : List Bytes}

theorem hasAt_kindImage {file : Bytes} {base pos a : Nat} {kind : Kind} {rest : Bytes}
    (ha : 0 < a) (h : HasAt file (base + pos) (kindImage pos kind a ++ rest)) :
    HasAt file (base + kindOffset pos a) [kind.byte] ∧
      HasAt file (base + kindOffset pos a + 1) rest := by
  have hlength := length_kindImage ha pos kind
  have hle := lt_kindOffset_add ha pos
  obtain ⟨hkind, hrest⟩ := hasAt_append.mp h
  rw [Nat.add_assoc, hlength, ← Nat.add_assoc] at hrest
  rw [kindImage, hasAt_append, List.length_replicate, Nat.add_assoc,
    Nat.add_sub_cancel' hle] at hkind
  exact ⟨hkind.2, hrest⟩

/-- The body of a value starts right after its kind byte: that place is aligned. -/
theorem alignUp_body {pos a k : Nat} (ha : a = 2 ^ k) (hk : k ≤ 3) (haligned : 8 ∣ base)
    (hsmall : base + kindOffset pos a + 1 < 2 ^ 32) :
    (alignUp (UInt64.ofNat (base + kindOffset pos a) + 1) (UInt64.ofNat a)).toNat =
      base + kindOffset pos a + 1 := by
  have hpow : 2 ^ k ≤ 8 := Nat.pow_le_pow_right (n := 2) (by omega) hk
  have hpos := Nat.two_pow_pos k
  have hone : (1 : UInt64).toNat = 1 := rfl
  have hplace : (UInt64.ofNat (base + kindOffset pos a) + 1).toNat =
      base + kindOffset pos a + 1 := by
    rw [UInt64.toNat_add, toNat_ofNat_of_lt64 (by omega), hone]
    omega
  have hdvd : 2 ^ k ∣ base + kindOffset pos a + 1 := by
    have hbody : kindOffset pos a + 1 = alignUpNat (pos + 1) a := by
      have hle := le_alignUpNat (show 0 < a by omega) (pos + 1)
      rw [kindOffset]
      omega
    rw [Nat.add_assoc, hbody, ha]
    exact Nat.dvd_add (Nat.dvd_trans (Nat.pow_dvd_pow 2 hk) haligned) (dvd_alignUpNat _ _)
  have halignment : (UInt64.ofNat a).toNat = 2 ^ k := by
    rw [toNat_ofNat_of_lt64 (by omega), ha]
  rw [toNat_alignUp (k := k) (by omega) halignment (by rw [hplace]; omega), hplace,
    alignUpNat_of_dvd hpos hdvd]

/-- The alignment of a kind is a power of two. -/
theorem Kind.bodyAlign_eq (kind : Kind) : ∃ k ≤ 3, kind.bodyAlign = 2 ^ k := by
  cases kind
  case null | false | true => exact ⟨0, by omega, rfl⟩
  case string => exact ⟨2, by omega, rfl⟩
  all_goals exact ⟨3, by omega, rfl⟩

/-- The kind byte of a node in the section. -/
theorem Placed.kindAt (h : Placed r base size addr strings) {offset : Nat} {kind : Kind}
    (hoffset : offset < size) (hat : HasAt r.base.bytes (base + offset) [kind.byte]) :
    kindAt r (UInt64.ofNat (base + offset)) = .ok kind := by
  have hsmall := h.small
  have hinside := h.inside
  have hplace := toNat_ofNat_of_lt64 (show base + offset < 2 ^ 64 by omega)
  have hend : (r.header.nodesOffset + r.header.nodesSize).toNat = base + size := by
    rw [UInt64.toNat_add, h.base_eq, h.size_eq]
    omega
  have hbyte : loadByte r.base (UInt64.ofNat (base + offset)) = .ok kind.byte :=
    loadByte_eq_ok.mpr (by rwa [hplace])
  rw [Hrbl.kindAt, if_neg, hbyte, ok_bind, Kind.ofByte_byte]
  rw [UInt64.lt_iff_toNat_lt, ge_iff_le, UInt64.le_iff_toNat_le, hplace, hend, h.base_eq]
  omega

/-! ## Scalars -/

/-- The body of a scalar. -/
theorem Placed.scalarBody (h : Placed r base size addr strings) {pos : Nat} {kind : Kind}
    (hat : HasAt r.base.bytes (base + kindOffset pos kind.bodyAlign) [kind.byte])
    (hend : kindOffset pos kind.bodyAlign + 1 + kind.bodySize ≤ size) :
    ∃ body, scalarBody r (UInt64.ofNat (base + kindOffset pos kind.bodyAlign)) kind = .ok body ∧
      body.toNat = base + kindOffset pos kind.bodyAlign + 1 := by
  have hsmall := h.small
  have hinside := h.inside
  obtain ⟨k, hk, halign⟩ := kind.bodyAlign_eq
  have hbody := alignUp_body halign hk h.aligned
    (show base + kindOffset pos kind.bodyAlign + 1 < 2 ^ 32 by omega)
  have hwidth : (UInt64.ofNat kind.bodySize).toNat = kind.bodySize :=
    toNat_ofNat_of_lt64 (by cases kind <;> decide)
  refine ⟨_, ?_, hbody⟩
  rw [Hrbl.scalarBody, h.kindAt (by omega) hat, ok_bind, if_neg (not_not.mpr rfl)]
  simp only
  rw [if_neg]
  rw [gt_iff_lt, UInt64.lt_iff_toNat_lt, UInt64.toNat_add, hbody, hwidth, Buffer.toNat_size]
  omega

theorem loadU64_of_hasAt {b : Buffer} {offset x : UInt64}
    (h : HasAt b.bytes offset.toNat (le64 x)) : loadU64 b offset = .ok x := by
  have hle := h.le_length (by simp [le64, leBytes])
  rw [length_le64] at hle
  rw [loadU64, load_of_hasAt h (length_le64 x) hle, ok_bind, u64At_of_hasAt (HasAt.self (le64 x))]
  rfl

/-- Two words of 32 bits, one after the other. -/
theorem load_words_of_hasAt {b : Buffer} {offset : UInt64} {x y : UInt32}
    (h : HasAt b.bytes offset.toNat (le32 x ++ le32 y)) :
    ∃ raw, load b offset 8 = .ok raw ∧ u32At raw 0 = x ∧ u32At raw 4 = y := by
  have hlength : (le32 x ++ le32 y).length = 8 := by
    rw [List.length_append, length_le32, length_le32]
  have hle := h.le_length (by simp [le32, leBytes])
  rw [hlength] at hle
  obtain ⟨hx, hy⟩ := hasAt_append.mp (HasAt.self (le32 x ++ le32 y))
  rw [length_le32, Nat.zero_add] at hy
  exact ⟨_, load_of_hasAt h hlength hle, u32At_of_hasAt hx, u32At_of_hasAt hy⟩

theorem loadStringRef_of_hasAt {b : Buffer} {offset : UInt64} {poolOffset length : UInt32}
    (h : HasAt b.bytes offset.toNat (le32 poolOffset ++ le32 length)) :
    loadStringRef b offset = .ok { poolOffset, length } := by
  obtain ⟨raw, hload, rfl, rfl⟩ := load_words_of_hasAt h
  rw [loadStringRef, hload]
  rfl

theorem loadBlockHeader_of_hasAt {b : Buffer} {offset : UInt64}
    {childCount entriesSizeBytes : UInt32}
    (h : HasAt b.bytes offset.toNat (le32 childCount ++ le32 entriesSizeBytes)) :
    loadBlockHeader b offset = .ok { childCount, entriesSizeBytes } := by
  obtain ⟨raw, hload, rfl, rfl⟩ := load_words_of_hasAt h
  rw [loadBlockHeader, hload]
  rfl

theorem loadArrayHeader_of_hasAt {b : Buffer} {offset : UInt64}
    {elementCount bodySizeBytes : UInt32}
    (h : HasAt b.bytes offset.toNat (le32 elementCount ++ le32 bodySizeBytes)) :
    loadArrayHeader b offset = .ok { elementCount, bodySizeBytes } := by
  obtain ⟨raw, hload, rfl, rfl⟩ := load_words_of_hasAt h
  rw [loadArrayHeader, hload]
  rfl

/-- A string of the pool, as a range of the file. -/
theorem Placed.range (h : Placed r base size addr strings) {s : Bytes} (hs : s ∈ strings) :
    ¬ (addr s).toUInt64 + 4 + (UInt32.ofNat s.length).toUInt64 > r.size ∧
      ((addr s).toUInt64 + 4).toNat = (addr s).toNat + 4 ∧
      (UInt32.ofNat s.length).toNat = s.length ∧
      load r.base ((addr s).toUInt64 + 4) s.length = .ok s := by
  obtain ⟨hinside, hat⟩ := h.string s hs
  have hsmall := h.small
  have hfour : (4 : UInt64).toNat = 4 := rfl
  have hlt := (addr s).toNat_lt
  have hlength : (UInt32.ofNat s.length).toNat = s.length := by
    rw [UInt32.toNat_ofNat']
    exact Nat.mod_eq_of_lt (by omega)
  have hplace : ((addr s).toUInt64 + 4).toNat = (addr s).toNat + 4 := by
    rw [UInt64.toNat_add, UInt32.toNat_toUInt64, hfour]
    omega
  refine ⟨?_, hplace, hlength,
    load_of_hasAt (by rwa [hplace]) rfl (by rw [hplace]; exact hinside)⟩
  rw [gt_iff_lt, UInt64.lt_iff_toNat_lt, UInt64.toNat_add, hplace, UInt32.toNat_toUInt64, hlength,
    Buffer.toNat_size]
  omega

/-- A scalar in the section. -/
theorem Placed.scalar (h : Placed r base size addr strings) {pos : Nat} {s : Scalar}
    (hat : HasAt r.base.bytes (base + pos) (kindImage pos s.kind s.kind.bodyAlign ++
      render addr s.image))
    (hend : kindOffset pos s.kind.bodyAlign + 1 + imageWidth s.image ≤ size)
    (hrefs : ∀ u ∈ refTargets s.image, u ∈ strings) :
    HoldsScalar r (UInt64.ofNat (base + kindOffset pos s.kind.bodyAlign)) s := by
  obtain ⟨hkind, hbody⟩ := hasAt_kindImage s.kind.bodyAlign_pos hat
  have hkindAt := h.kindAt (show kindOffset pos s.kind.bodyAlign < size by omega) hkind
  refine ⟨hkindAt, ?_⟩
  cases s with
  | null => rfl
  | bool value =>
    cases value
    all_goals
      rw [Scalar.kind] at hkindAt
      simp only [readScalar, Scalar.kind, getBool, scalarBoolAt, Bool.false_eq_true, if_false,
        if_true] at hkindAt ⊢
      rw [hkindAt]
      rfl
  | int64 value =>
    obtain ⟨body, hok, hplace⟩ := h.scalarBody hkind hend
    simp only [Scalar.image, render, List.append_nil] at hbody
    rw [← hplace] at hbody
    simp only [readScalar, Scalar.kind, getInt64, scalarInt64At] at hok ⊢
    rw [hok, ok_bind, loadU64_of_hasAt hbody]
    simp only [ok_bind, pure_eq, Int64.toInt64_toUInt64]
  | uint64 value =>
    obtain ⟨body, hok, hplace⟩ := h.scalarBody hkind hend
    simp only [Scalar.image, render, List.append_nil] at hbody
    rw [← hplace] at hbody
    simp only [readScalar, Scalar.kind, getUint64, scalarUint64At] at hok ⊢
    rw [hok, ok_bind, loadU64_of_hasAt hbody]
    rfl
  | float64 bits =>
    obtain ⟨body, hok, hplace⟩ := h.scalarBody hkind hend
    simp only [Scalar.image, render, List.append_nil] at hbody
    rw [← hplace] at hbody
    simp only [readScalar, Scalar.kind, getFloat64, scalarFloat64At] at hok ⊢
    rw [hok, ok_bind, loadU64_of_hasAt hbody]
    rfl
  | string value =>
    obtain ⟨body, hok, hplace⟩ := h.scalarBody hkind hend
    obtain ⟨hroom, -, hlength, hload⟩ := h.range (hrefs value List.mem_cons_self)
    simp only [Scalar.image, render, List.append_nil] at hbody
    rw [← hplace] at hbody
    simp only [readScalar, Scalar.kind, getString, scalarStringAt] at hok ⊢
    rw [hok, ok_bind, loadStringRef_of_hasAt hbody]
    simp only [ok_bind, if_neg hroom, readRange, UInt32.toNat_toUInt64, hlength, hload, pure_eq]

/-! ## Blocks and arrays -/

/-- Where the header of a block or an array is, with room for it. -/
theorem Placed.bodyPlace (h : Placed r base size addr strings) {pos width : Nat}
    (hend : kindOffset pos 8 + 9 + width ≤ size) :
    (UInt64.ofNat (base + kindOffset pos 8)).toNat = base + kindOffset pos 8 ∧
      ¬ UInt64.ofNat (base + kindOffset pos 8) ≥ r.size ∧
      (alignUp (UInt64.ofNat (base + kindOffset pos 8) + 1) 8).toNat =
        base + kindOffset pos 8 + 1 ∧
      (alignUp (UInt64.ofNat (base + kindOffset pos 8) + 1) 8 + 8).toNat =
        base + kindOffset pos 8 + 9 ∧
      ¬ alignUp (UInt64.ofNat (base + kindOffset pos 8) + 1) 8 + 8 > r.size := by
  have hsmall := h.small
  have hinside := h.inside
  have hplace := toNat_ofNat_of_lt64 (show base + kindOffset pos 8 < 2 ^ 64 by omega)
  have haligned : (alignUp (UInt64.ofNat (base + kindOffset pos 8) + 1) 8).toNat =
      base + kindOffset pos 8 + 1 :=
    alignUp_body (k := 3) rfl (by omega) h.aligned (by omega)
  have height : (8 : UInt64).toNat = 8 := rfl
  have hstart : (alignUp (UInt64.ofNat (base + kindOffset pos 8) + 1) 8 + 8).toNat =
      base + kindOffset pos 8 + 9 := by
    rw [UInt64.toNat_add, haligned, height]
    omega
  refine ⟨hplace, ?_, haligned, hstart, ?_⟩
  · rw [ge_iff_le, UInt64.le_iff_toNat_le, hplace, Buffer.toNat_size]
    omega
  · rw [gt_iff_lt, UInt64.lt_iff_toNat_lt, hstart, Buffer.toNat_size]
    omega

/-- The table of a block starts behind its header. -/
theorem Placed.blockBody (h : Placed r base size addr strings) {pos count : Nat} (rest : Bytes)
    (hat : HasAt r.base.bytes (base + pos) (kindImage pos .block 8 ++
      (le32 (UInt32.ofNat count) ++ le32 (UInt32.ofNat (count * 24)) ++ rest)))
    (hend : kindOffset pos 8 + 9 + count * 24 ≤ size) :
    ∃ header start, blockBodyOffsets r (UInt64.ofNat (base + kindOffset pos 8)) =
        .ok (header, start) ∧ header.childCount.toNat = count ∧
      start.toNat = base + kindOffset pos 8 + 9 ∧ HasAt r.base.bytes start.toNat rest := by
  have hsmall := h.small
  have hinside := h.inside
  obtain ⟨hkind, hbody⟩ := hasAt_kindImage (by omega) hat
  obtain ⟨hheader, hrest⟩ := hasAt_append.mp hbody
  rw [List.length_append, length_le32, length_le32] at hrest
  obtain ⟨hplace, hoffset, haligned, hstart, hroom⟩ := h.bodyPlace hend
  have hcount := toNat_ofNat_of_lt (show count < 2 ^ 32 by omega)
  have hbyte := loadByte_eq_ok.mpr (by rwa [hplace])
  have hload := loadBlockHeader_of_hasAt (by rwa [haligned])
  refine ⟨{ childCount := .ofNat count, entriesSizeBytes := .ofNat (count * 24) }, _, ?_,
    hcount, hstart, by rwa [hstart]⟩
  rw [blockBodyOffsets, if_neg hoffset, hbyte, ok_bind, if_neg (not_not.mpr rfl)]
  simp only
  rw [if_neg hroom, hload, ok_bind]
  simp only
  rw [if_neg]
  rw [gt_iff_lt, UInt64.lt_iff_toNat_lt, UInt64.toNat_add, UInt64.toNat_mul,
    UInt32.toNat_toUInt64, hstart, hcount, Buffer.toNat_size,
    show blockEntrySize.toNat = 24 from rfl]
  omega

/-- The table of an array starts behind its header. -/
theorem Placed.arrayBody (h : Placed r base size addr strings) {pos count : Nat} (rest : Bytes)
    (hat : HasAt r.base.bytes (base + pos) (kindImage pos .array 8 ++
      (le32 (UInt32.ofNat count) ++ le32 (UInt32.ofNat (count * 8)) ++ rest)))
    (hend : kindOffset pos 8 + 9 + count * 8 ≤ size) :
    ∃ header start, arrayBodyOffsets r (UInt64.ofNat (base + kindOffset pos 8)) =
        .ok (header, start) ∧ header.elementCount.toNat = count ∧
      start.toNat = base + kindOffset pos 8 + 9 ∧ HasAt r.base.bytes start.toNat rest := by
  have hsmall := h.small
  have hinside := h.inside
  obtain ⟨hkind, hbody⟩ := hasAt_kindImage (by omega) hat
  obtain ⟨hheader, hrest⟩ := hasAt_append.mp hbody
  rw [List.length_append, length_le32, length_le32] at hrest
  obtain ⟨hplace, hoffset, haligned, hstart, hroom⟩ := h.bodyPlace hend
  have hcount := toNat_ofNat_of_lt (show count < 2 ^ 32 by omega)
  have hbyte := loadByte_eq_ok.mpr (by rwa [hplace])
  have hload := loadArrayHeader_of_hasAt (by rwa [haligned])
  refine ⟨{ elementCount := .ofNat count, bodySizeBytes := .ofNat (count * 8) }, _, ?_,
    hcount, hstart, by rwa [hstart]⟩
  rw [arrayBodyOffsets, if_neg hoffset, hbyte, ok_bind, if_neg (not_not.mpr rfl)]
  simp only
  rw [if_neg hroom, hload, ok_bind]
  simp only
  rw [if_neg]
  rw [gt_iff_lt, UInt64.lt_iff_toNat_lt, UInt64.toNat_add, UInt64.toNat_mul,
    UInt32.toNat_toUInt64, hstart, hcount, Buffer.toNat_size,
    show arrayElementSize.toNat = 8 from rfl]
  omega

/-! ## Values -/

/-- A member that was laid out is where it was laid. -/
def HeldMember (hash64 : Bytes → UInt64) (r : Reader) (laid : Bytes × Nat)
    (member : Bytes × Value) : Prop :=
  laid.1 = member.1 ∧ Holds hash64 r (UInt64.ofNat laid.2) member.2

variable {hash64 : Bytes → UInt64}

/-- The entries of members that are where they were laid. -/
theorem Placed.holdsMembers (h : Placed r base size addr strings) {laid : List (Bytes × Nat)}
    {members : List (Bytes × Value)}
    (hheld : List.Forall₂ (HeldMember hash64 r) laid members) :
    ∀ {start : UInt64}, (∀ m ∈ laid, m.1 ∈ strings) →
      HasAt r.base.bytes start.toNat (render addr (laid.flatMap (entryImage hash64))) →
      HoldsMembers hash64 r start members := by
  induction hheld with
  | nil =>
    intro _ _ _
    rw [HoldsMembers]
    trivial
  | @cons m member laid members hmember _ ih =>
    intro start hkeys hat
    obtain ⟨hkey, hvalue⟩ := hmember
    obtain ⟨hfirst, hrest⟩ := List.forall_mem_cons.mp hkeys
    rw [List.flatMap_cons, render_append, render_entryImage, hasAt_append,
      Entry.length_encode] at hat
    have hend := le_length_of_hasAt_entry hat.1
    have hsmall := h.small
    have hnext : (start + 24).toNat = start.toNat + 24 := by
      rw [UInt64.toNat_add, show (24 : UInt64).toNat = 24 from rfl]
      omega
    obtain ⟨hroom, hplace, hlength, hload⟩ := h.range hfirst
    obtain ⟨hinside, -⟩ := h.string m.1 hfirst
    rw [HoldsMembers]
    refine ⟨⟨entryWith hash64 addr m, readEntry_of_hasAt hat.1, ?_, hvalue⟩,
      ih hrest (by rw [hnext]; exact hat.2)⟩
    rw [← hkey]
    exact ⟨rfl, hlength, hinside, hload⟩

/-- The offsets of elements that are where they were laid. -/
theorem Placed.holdsElements (h : Placed r base size addr strings) {laid : List Nat}
    {elements : List Value}
    (hheld : List.Forall₂ (fun offset => Holds hash64 r (UInt64.ofNat offset)) laid elements) :
    ∀ {start : UInt64},
      HasAt r.base.bytes start.toNat (laid.flatMap fun offset => le64 (UInt64.ofNat offset)) →
      HoldsElements hash64 r start elements := by
  induction hheld with
  | nil =>
    intro _ _
    rw [HoldsElements]
    trivial
  | @cons offset value laid elements hvalue _ ih =>
    intro start hat
    rw [List.flatMap_cons, hasAt_append, length_le64] at hat
    have hend := hat.1.le_length (by simp [le64, leBytes])
    rw [length_le64] at hend
    have hsmall := h.small
    have hnext : (start + 8).toNat = start.toNat + 8 := by
      rw [UInt64.toNat_add, show (8 : UInt64).toNat = 8 from rfl]
      omega
    rw [HoldsElements]
    exact ⟨⟨hend, _, loadU64_of_hasAt hat.1, hvalue⟩, ih (by rw [hnext]; exact hat.2)⟩

theorem length_membersInFileOrder (hash64 : Bytes → UInt64) (members : List (Bytes × Value)) :
    (membersInFileOrder hash64 members).length = members.length := by
  induction members with
  | nil => rfl
  | cons m members ih => rw [membersInFileOrder, List.length_cons, ih, List.length_cons]

theorem length_elementsInFileOrder (hash64 : Bytes → UInt64) (elements : List Value) :
    (elementsInFileOrder hash64 elements).length = elements.length := by
  induction elements with
  | nil => rfl
  | cons e elements ih => rw [elementsInFileOrder, List.length_cons, ih, List.length_cons]

/-- Sorted entries of members that are where they were laid. -/
theorem Placed.holdsSorted (h : Placed r base size addr strings) {laid : List (Bytes × Nat)}
    {members : List (Bytes × Value)} {start : UInt64}
    (hheld : List.Forall₂ (HeldMember hash64 r) laid members)
    (hkeys : ∀ m ∈ laid, m.1 ∈ strings)
    (hat : HasAt r.base.bytes start.toNat (render addr (entriesImage hash64 laid))) :
    HoldsMembers hash64 r start (stableSort (fun m => (hash64 m.1).toNat) members) :=
  h.holdsMembers (forall₂_stableSort (fun m member hm => by rw [hm.1]) hheld)
    (fun m hm => hkeys m ((stableSort_perm _ _).mem_iff.mp hm)) hat

mutual

/-- A value in the section, with its blocks in the order of a file. -/
theorem Placed.value (h : Placed r base size addr strings) : ∀ {value : Value} {pos : Nat},
    HasAt r.base.bytes (base + pos) (render addr (valueImage hash64 base pos value)) →
    pos + imageWidth (valueImage hash64 base pos value) ≤ size →
    (∀ u ∈ refTargets (valueImage hash64 base pos value), u ∈ strings) →
    Holds hash64 r (UInt64.ofNat (base + kindOffset pos value.bodyAlign))
      (value.inFileOrder hash64)
  | .scalar s, pos, hat, hend, hrefs => by
    have hlength := length_kindImage s.kind.bodyAlign_pos pos s.kind
    rw [valueImage, imageWidth_cons, Chunk.width] at hend
    rw [Value.inFileOrder, Holds]
    exact h.scalar hat (by omega) hrefs
  | .block members, pos, hat, hend, hrefs => by
    have hlength := length_kindImage (show 0 < 8 by omega) pos Kind.block
    have hentries := imageWidth_entries hash64 (stableSort (fun m => (hash64 m.1).toNat)
      (membersImage hash64 base (blockStart pos members.length) members).1)
    rw [length_stableSort, length_membersImage] at hentries
    rw [valueImage_block, imageWidth_cons, imageWidth_append, Chunk.width, List.length_append,
      List.length_append, length_le32, length_le32, entriesImage, hentries] at hend
    rw [valueImage_block, render, render_append, List.append_assoc, List.append_assoc] at hat
    -- header and table come first, then the members one after the other
    obtain ⟨header, start, hbody, hcount, hstart, hrest⟩ := h.blockBody
      (render addr (entriesImage hash64
        (membersImage hash64 base (blockStart pos members.length) members).1) ++
        render addr (membersImage hash64 base (blockStart pos members.length) members).2)
      (by rwa [List.append_assoc]) (by omega)
    obtain ⟨htable, hmembers⟩ := hasAt_append.mp hrest
    have hblock : blockStart pos members.length = kindOffset pos 8 + 9 + members.length * 24 := rfl
    have hplace : base + kindOffset pos 8 + 9 + members.length * 24 =
        base + blockStart pos members.length := by omega
    rw [length_render, entriesImage, hentries, hstart, hplace] at hmembers
    obtain ⟨hkind, -⟩ := hasAt_kindImage (show 0 < 8 by omega) hat
    have hrefs' : ∀ u ∈ members.map Prod.fst ++ refTargets
        (membersImage hash64 base (blockStart pos members.length) members).2, u ∈ strings :=
      fun u hu => hrefs u (mem_refTargets_block.mpr hu)
    have hheld := h.members hmembers (by omega)
      fun u hu => hrefs' u (List.mem_append_right _ hu)
    have hkeys : ∀ m ∈ (membersImage hash64 base (blockStart pos members.length) members).1,
        m.1 ∈ strings := fun m hm => by
      have hkey := List.mem_map_of_mem (f := Prod.fst) hm
      rw [membersImage_keys] at hkey
      exact hrefs' _ (List.mem_append_left _ hkey)
    rw [Value.inFileOrder, Holds]
    refine ⟨h.kindAt (show kindOffset pos 8 < size by omega) hkind, header, start,
      hbody, ?_, h.holdsSorted hheld hkeys htable⟩
    rw [hcount, length_stableSort, length_membersInFileOrder]
  | .array elements, pos, hat, hend, hrefs => by
    have hlength := length_kindImage (show 0 < 8 by omega) pos Kind.array
    have hlaid := length_elementsImage hash64 base (arrayStart pos elements.length) elements
    have htable := length_flatMap_le64
      (elementsImage hash64 base (arrayStart pos elements.length) elements).1
    rw [hlaid] at htable
    rw [valueImage_array, imageWidth_cons, Chunk.width, List.length_append, List.length_append,
      List.length_append, length_le32, length_le32, htable] at hend
    rw [valueImage_array, render, List.append_assoc, List.append_assoc, List.append_assoc] at hat
    -- the offsets come first, then the elements
    obtain ⟨header, start, hbody, hcount, hstart, hrest⟩ := h.arrayBody
      ((elementsImage hash64 base (arrayStart pos elements.length) elements).1.flatMap
          (fun offset => le64 (UInt64.ofNat offset)) ++
        render addr (elementsImage hash64 base (arrayStart pos elements.length) elements).2)
      (by rwa [List.append_assoc]) (by omega)
    obtain ⟨hoffsets, helements⟩ := hasAt_append.mp hrest
    have harray : arrayStart pos elements.length = kindOffset pos 8 + 9 + elements.length * 8 := rfl
    have hplace : base + kindOffset pos 8 + 9 + elements.length * 8 =
        base + arrayStart pos elements.length := by omega
    rw [htable, hstart, hplace] at helements
    obtain ⟨hkind, -⟩ := hasAt_kindImage (show 0 < 8 by omega) hat
    have hheld := h.elements helements (by omega) hrefs
    rw [Value.inFileOrder, Holds]
    refine ⟨h.kindAt (show kindOffset pos 8 < size by omega) hkind, header, start,
      hbody, ?_, h.holdsElements hheld hoffsets⟩
    rw [hcount, length_elementsInFileOrder]

theorem Placed.members (h : Placed r base size addr strings) :
    ∀ {members : List (Bytes × Value)} {pos : Nat},
      HasAt r.base.bytes (base + pos) (render addr (membersImage hash64 base pos members).2) →
      pos + imageWidth (membersImage hash64 base pos members).2 ≤ size →
      (∀ u ∈ refTargets (membersImage hash64 base pos members).2, u ∈ strings) →
      List.Forall₂ (HeldMember hash64 r) (membersImage hash64 base pos members).1
        (membersInFileOrder hash64 members)
  | [], _, _, _, _ => .nil
  | (key, value) :: members, pos, hat, hend, hrefs => by
    rw [membersImage_cons] at hat hend hrefs ⊢
    rw [render_append, hasAt_append, length_render, Nat.add_assoc] at hat
    rw [imageWidth_append] at hend
    rw [refTargets_append] at hrefs
    rw [membersInFileOrder]
    exact .cons ⟨rfl, h.value hat.1 (by omega) fun u hu => hrefs u (List.mem_append_left _ hu)⟩
      (h.members hat.2 (by omega) fun u hu => hrefs u (List.mem_append_right _ hu))

theorem Placed.elements (h : Placed r base size addr strings) :
    ∀ {elements : List Value} {pos : Nat},
      HasAt r.base.bytes (base + pos) (render addr (elementsImage hash64 base pos elements).2) →
      pos + imageWidth (elementsImage hash64 base pos elements).2 ≤ size →
      (∀ u ∈ refTargets (elementsImage hash64 base pos elements).2, u ∈ strings) →
      List.Forall₂ (fun offset => Holds hash64 r (UInt64.ofNat offset))
        (elementsImage hash64 base pos elements).1 (elementsInFileOrder hash64 elements)
  | [], _, _, _, _ => .nil
  | value :: elements, pos, hat, hend, hrefs => by
    rw [elementsImage_cons] at hat hend hrefs ⊢
    rw [render_append, hasAt_append, length_render, Nat.add_assoc] at hat
    rw [imageWidth_append] at hend
    rw [refTargets_append] at hrefs
    rw [elementsInFileOrder]
    exact .cons (h.value hat.1 (by omega) fun u hu => hrefs u (List.mem_append_left _ hu))
      (h.elements hat.2 (by omega) fun u hu => hrefs u (List.mem_append_right _ hu))

end

end

/-! ## Depth -/

theorem membersDepth_perm {members members' : List (Bytes × Value)}
    (h : members.Perm members') : membersDepth members = membersDepth members' := by
  induction h with
  | nil => rfl
  | cons m _ ih => rw [membersDepth, membersDepth, ih]
  | swap m n members =>
    rw [membersDepth, membersDepth, membersDepth, membersDepth, Nat.max_left_comm]
  | trans _ _ ih ih' => exact ih.trans ih'

mutual

/-- The order in a file has as many levels. -/
theorem depth_inFileOrder (hash64 : Bytes → UInt64) : ∀ value : Value,
    (value.inFileOrder hash64).depth = value.depth
  | .scalar _ => by rw [Value.inFileOrder]
  | .block members => by
    rw [Value.inFileOrder, Value.depth, Value.depth, membersDepth_perm (stableSort_perm _ _),
      membersDepth_inFileOrder hash64 members]
  | .array elements => by
    rw [Value.inFileOrder, Value.depth, Value.depth, elementsDepth_inFileOrder hash64 elements]

theorem membersDepth_inFileOrder (hash64 : Bytes → UInt64) : ∀ members : List (Bytes × Value),
    membersDepth (membersInFileOrder hash64 members) = membersDepth members
  | [] => rfl
  | (_, value) :: members => by
    rw [membersInFileOrder, membersDepth, membersDepth, depth_inFileOrder hash64 value,
      membersDepth_inFileOrder hash64 members]

theorem elementsDepth_inFileOrder (hash64 : Bytes → UInt64) : ∀ elements : List Value,
    elementsDepth (elementsInFileOrder hash64 elements) = elementsDepth elements
  | [] => rfl
  | value :: elements => by
    rw [elementsInFileOrder, elementsDepth, elementsDepth, depth_inFileOrder hash64 value,
      elementsDepth_inFileOrder hash64 elements]

end

mutual

/-- Every level of a value takes a byte. -/
theorem depth_le_width (hash64 : Bytes → UInt64) (base : Nat) : ∀ (value : Value) (pos : Nat),
    value.depth ≤ imageWidth (valueImage hash64 base pos value)
  | .scalar s, pos => by
    have hlength := length_kindImage s.kind.bodyAlign_pos pos s.kind
    have hle := lt_kindOffset_add s.kind.bodyAlign_pos pos
    rw [valueImage, Value.depth, imageWidth_cons, Chunk.width]
    omega
  | .block members, pos => by
    have hle := membersDepth_le_width hash64 base members (blockStart pos members.length)
    rw [valueImage_block, Value.depth, imageWidth_cons, imageWidth_append, Chunk.width,
      List.length_append, length_le32]
    omega
  | .array elements, pos => by
    have hle := elementsDepth_le_width hash64 base elements (arrayStart pos elements.length)
    rw [valueImage_array, Value.depth, imageWidth_cons, Chunk.width, List.length_append,
      List.length_append, length_le32]
    omega

theorem membersDepth_le_width (hash64 : Bytes → UInt64) (base : Nat) :
    ∀ (members : List (Bytes × Value)) (pos : Nat),
      membersDepth members ≤ imageWidth (membersImage hash64 base pos members).2
  | [], _ => Nat.le_refl 0
  | (key, value) :: members, pos => by
    have hvalue := depth_le_width hash64 base value pos
    have hmembers := membersDepth_le_width hash64 base members
      (pos + imageWidth (valueImage hash64 base pos value))
    rw [membersImage_cons, membersDepth, imageWidth_append]
    omega

theorem elementsDepth_le_width (hash64 : Bytes → UInt64) (base : Nat) :
    ∀ (elements : List Value) (pos : Nat),
      elementsDepth elements ≤ imageWidth (elementsImage hash64 base pos elements).2
  | [], _ => Nat.le_refl 0
  | value :: elements, pos => by
    have hvalue := depth_le_width hash64 base value pos
    have helements := elementsDepth_le_width hash64 base elements
      (pos + imageWidth (valueImage hash64 base pos value))
    rw [elementsImage_cons, elementsDepth, imageWidth_append]
    omega

end

theorem Value.bodyAlign_pos (value : Value) : 0 < value.bodyAlign := by
  cases value with
  | scalar s => exact s.kind.bodyAlign_pos
  | _ => exact Nat.succ_pos 7

/-- The kind byte of a value is in its image. -/
theorem kindOffset_lt_width (hash64 : Bytes → UInt64) (base : Nat) (value : Value) (pos : Nat) :
    kindOffset pos value.bodyAlign < pos + imageWidth (valueImage hash64 base pos value) := by
  have hlength := length_kindImage value.bodyAlign_pos pos value.kind
  cases value with
  | scalar s =>
    rw [valueImage, imageWidth_cons, Chunk.width]
    simp only [Value.bodyAlign, Value.kind] at hlength ⊢
    omega
  | block members =>
    rw [valueImage_block, imageWidth_cons, Chunk.width, List.length_append, List.length_append]
    simp only [Value.bodyAlign, Value.kind] at hlength ⊢
    omega
  | array elements =>
    rw [valueImage_array, imageWidth_cons, Chunk.width, List.length_append, List.length_append,
      List.length_append]
    simp only [Value.bodyAlign, Value.kind] at hlength ⊢
    omega

/-! ## Files -/

section

variable {hash64 : Bytes → UInt64} {document : Document} {b : Buffer}

/-- The sizes of the parts of a file. -/
theorem document_parts (hash64 : Bytes → UInt64) (document : Document) :
    nodesStart document = 128 + document.length * 24 ∧
      stringsStart hash64 document = nodesStart document +
        imageWidth (membersImage hash64 (nodesStart document) 0 document).2 ∧
      footerStart hash64 document = stringsStart hash64 document +
        (poolBytes (documentStrings hash64 document)).length ∧
      documentSize hash64 document = footerStart hash64 document + 32 := ⟨rfl, rfl, rfl, rfl⟩

theorem length_entriesImage (hash64 : Bytes → UInt64) (addr : Bytes → UInt32) (base pos : Nat)
    (members : List (Bytes × Value)) :
    (render addr (entriesImage hash64 (membersImage hash64 base pos members).1)).length =
      members.length * 24 := by
  rw [length_render, entriesImage, imageWidth_entries, length_stableSort, length_membersImage]

theorem render_entriesImage (addr : Bytes → UInt32) (laid : List (Bytes × Nat)) :
    render addr (entriesImage hash64 laid) =
      ((stableSort (fun m => (hash64 m.1).toNat) laid).map (entryWith hash64 addr)).flatMap
        Entry.encode := by
  rw [entriesImage]
  induction stableSort (fun m : Bytes × Nat => (hash64 m.1).toNat) laid with
  | nil => rfl
  | cons m laid ih =>
    rw [List.flatMap_cons, render_append, ih, render_entryImage, List.map_cons, List.flatMap_cons]

theorem length_documentPayload (hash64 : Bytes → UInt64) (document : Document) :
    128 + (documentPayload hash64 document).length = footerStart hash64 document := by
  obtain ⟨hnodes, hstrings, hfooter, -⟩ := document_parts hash64 document
  rw [documentPayload, List.length_append, List.length_append, length_entriesImage, length_render]
  omega

theorem length_documentFile (hash64 : Bytes → UInt64) (document : Document) :
    (documentFile hash64 document).length = documentSize hash64 document := by
  have hpayload := length_documentPayload hash64 document
  rw [documentFile, List.length_append, List.length_append, Header.length_encode,
    Footer.length_encode, documentSize]
  omega

/-- The envelope of the file of a document is in order. -/
theorem document_sealed (hbytes : b.bytes = documentFile hash64 document) :
    Sealed b (documentHeader hash64 document) (documentPayload hash64 document) := by
  obtain ⟨hnodes, hstrings, hfooter, hend⟩ := document_parts hash64 document
  have hlt := b.length_lt
  rw [hbytes, length_documentFile] at hlt
  have hsize : b.size = UInt64.ofNat (footerStart hash64 document + 32) := by
    rw [Buffer.size, hbytes, length_documentFile, hend]
  refine ⟨?_, documentFooter hash64 document, hbytes, rfl, rfl, rfl⟩
  constructor
  case fileSize => exact hsize.symm
  case rootCount =>
    rw [UInt64.le_iff_toNat_le, documentHeader]
    simp only
    rw [toNat_ofNat_of_lt64 (by omega)]
    have hmax : rootCountMax.toNat = (2 ^ 64 - 1) / 24 := by decide
    omega
  case rootIndexSize => exact UInt64.ofNat_mul _ _
  case nodesOffset => exact UInt64.ofNat_add _ _
  case stringsOffset =>
    simp only [documentHeader]
    rw [← UInt64.ofNat_add, Nat.add_sub_cancel' (by omega)]
  case footerOffset => exact UInt64.ofNat_add _ _
  case footerEnd => exact (UInt64.ofNat_add _ _).symm
  case versionMinor => exact UInt16.le_refl _
  case flagsRequired => exact (by decide : flagsV1Required &&& flagsV1Required = flagsV1Required)
  case flagsReserved => exact (by decide : flagsV1Required &&& flagsV1ReservedMask = 0)
  case reserved => exact fun _ => rfl
  all_goals rfl

/-- The reader on the file of a document. -/
theorem openBuffer_document (hbytes : b.bytes = documentFile hash64 document) :
    openBuffer true b = .ok { base := b, header := documentHeader hash64 document } :=
  openBuffer_eq_ok.mpr ⟨rfl, (document_sealed hbytes).enveloped⟩

/-- The parts of the payload at their places. -/
theorem documentFile_hasAt (hash64 : Bytes → UInt64) (document : Document) :
    HasAt (documentFile hash64 document) 128 (render (documentAddress hash64 document)
      (entriesImage hash64 (membersImage hash64 (nodesStart document) 0 document).1)) ∧
    HasAt (documentFile hash64 document) (nodesStart document)
      (render (documentAddress hash64 document)
        (membersImage hash64 (nodesStart document) 0 document).2) ∧
    HasAt (documentFile hash64 document) (stringsStart hash64 document)
      (poolBytes (documentStrings hash64 document)) := by
  have hpayload := HasAt.intro (documentHeader hash64 document).encode
    (documentPayload hash64 document) (documentFooter hash64 document).encode
  rw [← documentFile, Header.length_encode, documentPayload] at hpayload
  obtain ⟨hfront, hpool⟩ := hasAt_append.mp hpayload
  obtain ⟨hentries, hnodes⟩ := hasAt_append.mp hfront
  rw [length_entriesImage] at hnodes
  rw [List.length_append, length_entriesImage, length_render, ← Nat.add_assoc] at hpool
  exact ⟨hentries, hnodes, hpool⟩

theorem document_hasAt (hbytes : b.bytes = documentFile hash64 document) :
    HasAt b.bytes 128 (render (documentAddress hash64 document)
      (entriesImage hash64 (membersImage hash64 (nodesStart document) 0 document).1)) ∧
    HasAt b.bytes (nodesStart document) (render (documentAddress hash64 document)
      (membersImage hash64 (nodesStart document) 0 document).2) ∧
    HasAt b.bytes (stringsStart hash64 document)
      (poolBytes (documentStrings hash64 document)) := by
  rw [hbytes]
  exact documentFile_hasAt hash64 document

/-- The address and the length of a string have 32 bits, and its record is in the strings. -/
theorem document_address (hsize : documentSize hash64 document < 2 ^ 32) {s : Bytes}
    (hs : s ∈ documentStrings hash64 document) :
    (documentAddress hash64 document s).toNat =
        stringsStart hash64 document + poolOffsetOf (documentStrings hash64 document) s ∧
      (UInt32.ofNat s.length).toNat = s.length ∧
      poolOffsetOf (documentStrings hash64 document) s + 4 + s.length ≤
        (poolBytes (documentStrings hash64 document)).length := by
  obtain ⟨-, -, hfooter, hend⟩ := document_parts hash64 document
  have hplace := poolOffsetOf_lt hs
  have hle := le_alignUpNat (show 0 < 4 by omega) s.length
  rw [length_record] at hplace
  exact ⟨toNat_ofNat_of_lt (by omega), toNat_ofNat_of_lt (by omega), by omega⟩

/-- The nodes of the file of a document are placed. -/
theorem document_placed (hbytes : b.bytes = documentFile hash64 document)
    (hsize : documentSize hash64 document < 2 ^ 32) :
    Placed { base := b, header := documentHeader hash64 document } (nodesStart document)
      (stringsStart hash64 document - nodesStart document) (documentAddress hash64 document)
      (documentStrings hash64 document) := by
  obtain ⟨hnodes, hstrings, hfooter, hend⟩ := document_parts hash64 document
  obtain ⟨-, -, hpool⟩ := document_hasAt hbytes
  have hlength : b.bytes.length = documentSize hash64 document := by
    rw [hbytes, length_documentFile]
  constructor
  case small => exact hlength ▸ hsize
  case base_eq => exact toNat_ofNat_of_lt64 (by omega)
  case size_eq => exact toNat_ofNat_of_lt64 (by omega)
  case inside =>
    simp only [hlength]
    omega
  case aligned =>
    rw [hnodes]
    omega
  case string =>
    intro s hs
    obtain ⟨haddress, -, hrecord⟩ := document_address hsize hs
    have hat : HasAt b.bytes (documentAddress hash64 document s).toNat (record s) := by
      rw [haddress]
      exact (hasAt_record hs).trans (hpool.drop _ (by omega))
    rw [record, List.append_assoc, hasAt_append, length_leBytes, hasAt_append] at hat
    refine ⟨?_, hat.2.1⟩
    simp only [hlength]
    omega

/-- The root index of the file of a document holds its members. -/
theorem document_holds (hbytes : b.bytes = documentFile hash64 document)
    (hsize : documentSize hash64 document < 2 ^ 32) :
    HoldsMembers hash64 { base := b, header := documentHeader hash64 document }
      (documentHeader hash64 document).rootIndexOffset (document.inFileOrder hash64) := by
  have hplaced := document_placed hbytes hsize
  obtain ⟨hentries, hnodes, -⟩ := document_hasAt hbytes
  obtain ⟨hstart, hstrings, -, -⟩ := document_parts hash64 document
  have hrefs : ∀ u ∈ documentRefs hash64 document, u ∈ documentStrings hash64 document :=
    fun u hu => mem_documentStrings hu
  have hheld : List.Forall₂ (HeldMember hash64 { base := b, header := documentHeader hash64 document })
      (membersImage hash64 (nodesStart document) 0 document).1
      (membersInFileOrder hash64 document) :=
    hplaced.members hnodes (by omega) fun u hu => hrefs u (List.mem_append_right _ hu)
  refine hplaced.holdsSorted hheld (fun m hm => ?_) hentries
  have hkey := List.mem_map_of_mem (f := Prod.fst) hm
  rw [membersImage_keys] at hkey
  exact hrefs _ (List.mem_append_left _ hkey)

/-- A client reads the document from its file. -/
theorem readDocument_document (hbytes : b.bytes = documentFile hash64 document)
    (hsize : documentSize hash64 document < 2 ^ 32) :
    readDocument { base := b, header := documentHeader hash64 document } =
      .ok (document.inFileOrder hash64) := by
  obtain ⟨hnodes, hstrings, hfooter, hend⟩ := document_parts hash64 document
  refine readDocument_of_holds ?_ (document_holds hbytes hsize) ?_
  · rw [Document.inFileOrder, length_stableSort, length_membersInFileOrder]
    exact toNat_ofNat_of_lt64 (by omega)
  · have hle := membersDepth_le_width hash64 (nodesStart document) document 0
    rw [Document.inFileOrder, membersDepth_perm (stableSort_perm _ _), membersDepth_inFileOrder,
      Buffer.toNat_size, hbytes, length_documentFile]
    omega

end

/-! ## Round trip -/

/-- A writer without open scopes returns the file of what the builder has built, if that is
smaller than 2^32 bytes. -/
theorem runs_written {env : Env} {options : Option WriterOptions} {ops : List Op} {w : Writer}
    (hrun : (Writer.create options).runs env ops = some w) (hclosed : w.currentScope = none) :
    ∃ document : Document, Builder.empty.run ops = some ⟨document, []⟩ ∧
      (documentSize env.hash64 document < 2 ^ 32 →
        w.Finalizes env document fun b => b.bytes = documentFile env.hash64 document) := by
  obtain ⟨⟨document, scopes⟩, hb, htracks, -, -⟩ :=
    runs_tracks (create_tracks env options) (by simp [Writer.create]) hrun
  obtain ⟨rfl, trees, hstored⟩ := htracks.stored hclosed
  refine ⟨document, hb, fun hsize => ⟨fun henv hsortable => ?_, fun b w' hreturned => ?_⟩⟩
  · obtain ⟨w', hreturned⟩ :=
      finalizeToBuffer_returned henv hstored (encodable_of_size hsize hsortable)
    exact ⟨⟨documentFile env.hash64 document, by rw [length_documentFile]; omega⟩, w', hreturned⟩
  · have hnarrow := (narrow_and_fits_of_size hsize).1
    exact (finalizeToBuffer_file hstored (membersNarrow_arrays hnarrow.2) hreturned).2

/-- What a writer has been told to build is what a client reads from the file it returns, the
members of the root and of every block in the stable order of the hashes of their keys. -/
theorem round_trip {env : Env} {options : Option WriterOptions} {ops : List Op} {w : Writer}
    (hrun : (Writer.create options).runs env ops = some w) (hclosed : w.currentScope = none) :
    ∃ document : Document, Builder.empty.run ops = some ⟨document, []⟩ ∧
      (documentSize env.hash64 document < 2 ^ 32 → w.Finalizes env document fun b =>
        ∃ r, openBuffer true b = .ok r ∧ readDocument r = .ok (document.inFileOrder env.hash64)) := by
  obtain ⟨document, hb, hwritten⟩ := runs_written hrun hclosed
  refine ⟨document, hb, fun hsize => (hwritten hsize).mono fun b hbytes => ?_⟩
  exact ⟨_, openBuffer_document hbytes, readDocument_document hbytes hsize⟩

/-- Two keys that sort the other way round, one of them with an array. -/
theorem round_trip_two :
    ∃ w b w' r, (Writer.create none).runs (.succeeding fun key => UInt64.ofNat key.length)
        [.setString (.data [0x61, 0x62]) [], .beginArray (.data []), .appendUint64 7,
          .appendNull, .endArray] = some w ∧
      finalizeToBuffer (.succeeding fun key => UInt64.ofNat key.length) w =
        .returned b.bytes w' ∧
      openBuffer true b = .ok r ∧ readDocument r = .ok [
        ([], .array [.scalar (.uint64 7), .scalar .null]),
        ([0x61, 0x62], .scalar (.string []))] := by
  obtain ⟨w, hrun, hclosed, hworkers⟩ : ∃ w, (Writer.create none).runs
      (.succeeding fun key => UInt64.ofNat key.length)
      [.setString (.data [0x61, 0x62]) [], .beginArray (.data []), .appendUint64 7,
        .appendNull, .endArray] = some w ∧ w.currentScope = none ∧
        WorkersFit w.options.workerCount := ⟨_, rfl, rfl, by decide⟩
  obtain ⟨document, hb, hfile⟩ := round_trip hrun hclosed
  cases hb
  obtain ⟨b, w', hreturned, r, hopen, hread⟩ :=
    (hfile (by decide +kernel)).returned (Env.succeeding_succeeds _) hworkers
  exact ⟨w, b, w', r, hrun, hreturned, hopen, hread⟩

end Hrbl
