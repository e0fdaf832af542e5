import Hrbl.Arrangement
import Hrbl.Export

/-!
# Printing a document

The JSON exporter without a file: the same calls for a value of a document, its members in
the order they are in. On a file that holds a value, the exporter makes the calls for that
value with its members rearranged: by their keys, or as they are in the file.
-/

namespace Hrbl

open Lib Lib.Outcome

variable {σ : Type}

/-! ## Documents -/

section

variable (core : Core σ) (options : Option ExportOptions)

def printScalar : Scalar → ExportM σ Unit
  | .null => writeLiteral core (ascii ['n', 'u', 'l', 'l'])
  | .bool false => writeLiteral core (ascii ['f', 'a', 'l', 's', 'e'])
  | .bool true => writeLiteral core (ascii ['t', 'r', 'u', 'e'])
  | .int64 value => writeNumberInt64 core value
  | .uint64 value => writeNumberUint64 core value
  | .float64 bits => writeNumberFloat64 core bits
  | .string value => writeJsonString core options value value.length

mutual

/-- A value, whose opening brace or bracket is at this depth. -/
def printValue : Value → UInt32 → ExportM σ Unit
  | .scalar s, _ => printScalar core options s
  | .block members, depth =>
    if members.length = 0 then writeLiteral core [0x7B, 0x7D]
    else do
      writeLiteral core [0x7B]
      writeNewline core options
      scratchAlloc core (members.length * 32) fail
      printMembers members true (depth + 1)
      writeNewline core options
      writeIndent core options depth
      exportWriteAll core [0x7D]
  | .array elements, depth =>
    if elements.length = 0 then writeLiteral core [0x5B, 0x5D]
    else do
      writeLiteral core [0x5B]
      writeNewline core options
      printElements elements true (depth + 1)
      writeNewline core options
      writeIndent core options depth
      exportWriteAll core [0x5D]

/-- Members, the first of them without a comma. -/
def printMembers : List (Bytes × Value) → Bool → UInt32 → ExportM σ Unit
  | [], _, _ => pure ()
  | (key, value) :: members, first, depth => do
    if !first then
      exportWriteAll core [0x2C]
      writeNewline core options
    writeIndent core options depth
    writeJsonString core options key key.length
    if indentSpacesOf options = 0 then exportWriteAll core [0x3A]
    else exportWriteAll core [0x3A, 0x20]
    printValue value depth
    printMembers members false depth

def printElements : List Value → Bool → UInt32 → ExportM σ Unit
  | [], _, _ => pure ()
  | value :: elements, first, depth => do
    if !first then
      exportWriteAll core [0x2C]
      writeNewline core options
    writeIndent core options depth
    printValue value depth
    printElements elements false depth

end

/-- A document. -/
def printRoots (document : Document) : ExportM σ Unit :=
  if document.length = 0 then do
    writeLiteral core [0x7B, 0x7D]
    writeNewline core options
  else do
    writeLiteral core [0x7B]
    writeNewline core options
    scratchAlloc core (document.length * 32) (throw .failed)
    printMembers core options document true 1
    writeNewline core options
    exportWriteAll core [0x7D]
    writeNewline core options

/-- The order that members are exported in, out of the order of the file. -/
def exportOrder : List (Bytes × Value) → List (Bytes × Value) → Prop :=
  if sortKeysOf options then SortedByKey else Eq

end

theorem exportOrder.perm {options : Option ExportOptions} {members out : List (Bytes × Value)}
    (h : exportOrder options members out) : members.Perm out := by
  rw [exportOrder] at h
  split at h
  · exact h.1
  · exact h ▸ List.Perm.refl _

theorem exportOrder_exists {core : Core σ} (hsort : Sorts core.sortWithCompare)
    (options : Option ExportOptions) (members : List (Bytes × Value)) :
    ∃ out, exportOrder options members out := by
  rw [exportOrder]
  split
  · have hless : ∀ a ∈ members, ∀ b ∈ members,
        decide (keyOrder a.1 < keyOrder b.1) = true ↔ keyOrder a.1 < keyOrder b.1 :=
      fun _ _ _ _ => decide_eq_true_iff
    obtain ⟨hperm, hsorted⟩ := hsort.by_key hless
    exact ⟨_, hperm.symm, hsorted⟩
  · exact ⟨members, rfl⟩

/-! ## Keys -/

/-- Bytes up to the shorter length, and then the lengths, are the order of keys. -/
theorem memcmp_take (a b : Bytes) :
    let cmp := memcmp (a.take (min a.length b.length)) (b.take (min a.length b.length))
    (if cmp ≠ 0 then decide (cmp < 0) else decide (a.length < b.length)) =
      decide (keyOrder a < keyOrder b) := by
  induction a generalizing b with
  | nil =>
    cases b with
    | nil => rfl
    | cons y b => simp [memcmp, keyOrder]
  | cons x a ih =>
    cases b with
    | nil => simp [memcmp, keyOrder]
    | cons y b =>
      have hmin : min (x :: a).length (y :: b).length = min a.length b.length + 1 := by
        rw [List.length_cons, List.length_cons, Nat.add_min_add_right]
      have horder : keyOrder (x :: a) < keyOrder (y :: b) ↔
          x.toNat < y.toNat ∨ x.toNat = y.toNat ∧ keyOrder a < keyOrder b :=
        List.cons_lt_cons_iff
      have hlength : (x :: a).length < (y :: b).length ↔ a.length < b.length := by
        rw [List.length_cons, List.length_cons, Nat.add_lt_add_iff_right]
      rw [hmin, List.take_succ_cons, List.take_succ_cons, memcmp]
      simp only [horder, hlength]
      by_cases hxy : x = y
      · subst hxy
        have hih := ih b
        simp only [if_true, Nat.lt_irrefl, true_and, false_or] at hih ⊢
        exact hih
      · have hne : x.toNat ≠ y.toNat := fun heq => hxy (UInt8.toNat_inj.mp heq)
        simp only [if_neg hxy, hne, false_and, or_false, UInt8.lt_iff_toNat_lt]
        by_cases hlt : x.toNat < y.toNat
        · simp [hlt]
        · simp [hlt]

/-- A key at a place in the pool. -/
structure KeyAt (r : Reader) (offset : UInt64) (length : UInt32) (key : Bytes) : Prop where
  length_eq : length.toNat = key.length
  load_eq : load r.base (offset + 4) key.length = .ok key

theorem load_take {b : Buffer} {offset : UInt64} {raw : Bytes} {n : Nat}
    (h : load b offset raw.length = .ok raw) (hn : n ≤ raw.length) :
    load b offset n = .ok (raw.take n) := by
  obtain ⟨hle, hraw⟩ := load_eq_ok h
  rw [load_ok_of_le (by omega), hraw, List.take_take, Nat.min_eq_left hn]

theorem loadBytes_eq {b : Buffer} {offset : UInt64} {n : Nat} {raw : Bytes}
    (h : load b offset n = .ok raw) : loadBytes b offset n = .ok raw := by
  obtain ⟨-, hraw⟩ := load_eq_ok h
  rw [loadBytes, h]
  split
  · rename_i hzero
    rw [hraw, hzero, List.take_zero]
  · rfl

/-- The comparison of two keys in the pool is that of the keys. -/
theorem keyLess_eq {r : Reader} {aOffset bOffset : UInt64} {aLength bLength : UInt32}
    {a b : Bytes} (ha : KeyAt r aOffset aLength a) (hb : KeyAt r bOffset bLength b) :
    keyLess r aOffset aLength bOffset bLength = .ok (decide (keyOrder a < keyOrder b)) := by
  have hmin : (if aLength < bLength then aLength else bLength).toNat =
      min a.length b.length := by
    rw [← ha.length_eq, ← hb.length_eq]
    split
    · rename_i hlt
      rw [UInt32.lt_iff_toNat_lt] at hlt
      omega
    · rename_i hlt
      rw [UInt32.lt_iff_toNat_lt] at hlt
      omega
  have hlength : aLength < bLength ↔ a.length < b.length := by
    rw [UInt32.lt_iff_toNat_lt, ha.length_eq, hb.length_eq]
  rw [keyLess, hmin, loadBytes_eq (load_take ha.load_eq (Nat.min_le_left _ _)),
    loadBytes_eq (load_take hb.load_eq (Nat.min_le_right _ _))]
  simp only [ok_bind, pure_eq, hlength]
  rw [← memcmp_take a b]
  split <;> rfl

/-! ## Strings -/

theorem utf8Continuation_take {rest : Bytes} {n k : Nat} {codepoint : UInt32} (h : n ≤ k) :
    utf8Continuation (rest.take k) n codepoint = utf8Continuation rest n codepoint := by
  induction n generalizing rest k codepoint with
  | zero => rw [utf8Continuation, utf8Continuation]
  | succ n ih =>
    obtain ⟨k, rfl⟩ : ∃ k', k = k' + 1 := ⟨k - 1, by omega⟩
    cases rest with
    | nil => rw [List.take_nil]
    | cons b rest => rw [List.take_succ_cons, utf8Continuation, utf8Continuation, ih (by omega)]

/-- A sequence that is decoded is inside of what is left. -/
theorem exportUtf8Decode_take {data : Bytes} {remaining : Nat} (hpos : 0 < remaining) :
    exportUtf8Decode (data.take remaining) remaining = exportUtf8Decode data remaining ∧
      ∀ codepoint consumed, exportUtf8Decode data remaining = .ok (codepoint, consumed) →
        consumed ≤ remaining := by
  obtain ⟨k, rfl⟩ : ∃ k, remaining = k + 1 := ⟨remaining - 1, by omega⟩
  cases data with
  | nil => exact ⟨by rw [List.take_nil], fun _ _ h => by cases h⟩
  | cons byte rest =>
    rw [List.take_succ_cons, exportUtf8Decode, exportUtf8Decode]
    by_cases hascii : byte < 0x80
    · rw [if_pos hascii, if_pos hascii]
      refine ⟨rfl, fun _ _ h => ?_⟩
      cases h
      omega
    · rw [if_neg hascii, if_neg hascii]
      cases utf8Lead byte with
      | none => exact ⟨rfl, fun _ _ h => by cases h⟩
      | some lead =>
        obtain ⟨continuations, lead⟩ := lead
        simp only
        by_cases hroom : continuations + 1 > k + 1
        · rw [if_pos hroom, if_pos hroom]
          exact ⟨rfl, fun _ _ h => by cases h⟩
        · rw [if_neg hroom, if_neg hroom, utf8Continuation_take (by omega)]
          refine ⟨rfl, fun codepoint consumed h => ?_⟩
          split at h
          · cases h
            omega
          · cases h
          · cases h

/-- A turn looks at nothing behind what is left. -/
theorem jsonPiece_take {asciiOnly : Bool} {data : Bytes} {remaining : Nat}
    (hpos : 0 < remaining) :
    jsonPiece asciiOnly (data.take remaining) remaining = jsonPiece asciiOnly data remaining := by
  obtain ⟨htake, hconsumed⟩ := @exportUtf8Decode_take data _ hpos
  obtain ⟨k, rfl⟩ : ∃ k, remaining = k + 1 := ⟨remaining - 1, by omega⟩
  cases data with
  | nil => rw [List.take_nil]
  | cons byte rest =>
    rw [List.take_succ_cons] at htake ⊢
    rw [jsonPiece, jsonPiece, htake]
    cases hdecode : exportUtf8Decode (byte :: rest) (k + 1) with
    | no => rfl
    | fault => rfl
    | ok p =>
      obtain ⟨codepoint, consumed⟩ := p
      have hle := hconsumed codepoint consumed hdecode
      have hbytes : (byte :: rest.take k).take consumed = (byte :: rest).take consumed := by
        rw [← List.take_succ_cons, List.take_take, Nat.min_eq_left hle]
      simp only [hbytes]

theorem jsonStringLoop_take (core : Core σ) (options : Option ExportOptions) (data : Bytes)
    (length index : Nat) :
    jsonStringLoop core options (data.take length) length index =
      jsonStringLoop core options data length index := by
  induction hleft : length - index using Nat.strong_induction_on generalizing index with
  | _ left ih =>
    rw [jsonStringLoop, jsonStringLoop]
    by_cases hindex : index < length
    · rw [if_pos hindex, if_pos hindex, List.drop_take, jsonPiece_take (by omega)]
      cases hpiece : jsonPiece (asciiOnlyOf options) (data.drop index) (length - index) with
      | no => rfl
      | fault => rfl
      | ok p =>
        obtain ⟨piece, consumed⟩ := p
        have hpos := jsonPiece_pos hpiece
        simp only
        rw [ih (length - (index + consumed)) (by omega) _ rfl]
    · rw [if_neg hindex, if_neg hindex]

/-- A string of the file is written as the string. -/
theorem writeJsonString_load (core : Core σ) (options : Option ExportOptions) {b : Buffer}
    {offset : UInt64} {s : Bytes} (h : load b offset s.length = .ok s) :
    writeJsonString core options (b.from offset) s.length =
      writeJsonString core options s s.length := by
  obtain ⟨-, hs⟩ := load_eq_ok h
  have hloop := jsonStringLoop_take core options (b.bytes.drop offset.toNat) s.length 0
  rw [← hs] at hloop
  rw [writeJsonString, writeJsonString, hloop]
  rfl

/-! ## Entries -/

/-- The key that an entry stands for. -/
def keyBytes (r : Reader) (offset : UInt64) (length : UInt32) : Bytes :=
  match load r.base (offset + 4) length.toNat with
  | .ok key => key
  | _ => []

theorem KeyAt.keyBytes_eq {r : Reader} {offset : UInt64} {length : UInt32} {key : Bytes}
    (h : KeyAt r offset length key) : keyBytes r offset length = key := by
  rw [keyBytes, h.length_eq, h.load_eq]

theorem HoldsKey.keyAt {hash64 : Bytes → UInt64} {r : Reader} {entry : Entry} {key : Bytes}
    (h : HoldsKey hash64 r entry key) :
    KeyAt r entry.keyPoolOffset.toUInt64 entry.keyLength key := ⟨h.length_eq, h.bytes⟩

/-- An entry of the file, with where it is, of a member. -/
def RawAt (hash64 : Bytes → UInt64) (r : Reader) (raw : UInt64 × Entry)
    (member : Bytes × Value) : Prop :=
  HoldsKey hash64 r raw.2 member.1 ∧ Holds hash64 r raw.2.valueOffset member.2

/-- The loop copies the entries of members, from their places one behind the other. -/
theorem copyEntries_holds {α : Type} {hash64 : Bytes → UInt64} {r : Reader}
    (copy : UInt64 → Entry → α) : ∀ {members : List (Bytes × Value)} {start : UInt64},
      HoldsMembers hash64 r start members → ∃ raws : List (UInt64 × Entry),
        copyEntries r copy members.length start = .ok (raws.map fun p => copy p.1 p.2) ∧
        List.Forall₂ (RawAt hash64 r) raws members ∧ (∀ p ∈ raws, start ≤ p.1) ∧
        raws.Pairwise fun a b => a.1 < b.1
  | [], _, _ => ⟨[], rfl, .nil, fun _ h => absurd h List.not_mem_nil, .nil⟩
  | (key, value) :: members, start, h => by
    rw [HoldsMembers] at h
    obtain ⟨⟨entry, hentry, hkey, hvalue⟩, hrest⟩ := h
    obtain ⟨raws, hcopy, hraws, hge, hsorted⟩ := copyEntries_holds copy hrest
    have hload : loadEntry r.base start = .ok entry := by
      rw [readEntry] at hentry
      split at hentry
      · cases hentry
      · exact hentry
    have hnext : start < start + 24 := by
      have hle := le_length_of_hasAt_entry (loadEntry_eq_ok.mp hload)
      have hlt := r.base.length_lt
      rw [UInt64.lt_iff_toNat_lt, UInt64.toNat_add, show (24 : UInt64).toNat = 24 from rfl]
      omega
    refine ⟨(start, entry) :: raws, ?_, .cons ⟨hkey, hvalue⟩ hraws, ?_, ?_⟩
    · have hcopy' : copyEntries r copy members.length (start + rootEntrySize) = _ := hcopy
      rw [List.length_cons, copyEntries, hload, ok_bind, hcopy']
      rfl
    · refine List.forall_mem_cons.mpr ⟨UInt64.le_refl _, fun p hp => ?_⟩
      exact UInt64.le_trans (UInt64.le_of_lt hnext) (hge p hp)
    · exact List.pairwise_cons.mpr ⟨fun p hp => UInt64.lt_of_lt_of_le hnext (hge p hp), hsorted⟩

/-- Entries that stand for members with rearranged values, each in its place. -/
theorem rows_of_raws {α : Type} {order : List (Bytes × Value) → List (Bytes × Value) → Prop}
    {hash64 : Bytes → UInt64} {r : Reader} {copy : UInt64 → Entry → α}
    {Row : α → Bytes × Value → Prop} {raws : List (UInt64 × Entry)}
    {members : List (Bytes × Value)} (hraws : List.Forall₂ (RawAt hash64 r) raws members)
    (hrow : ∀ raw, ∀ m ∈ members, RawAt hash64 r raw m → ∃ value',
      Rearranged order m.2 value' ∧ Row (copy raw.1 raw.2) (m.1, value')) :
    ∃ mid, RearrangedMembers order members mid ∧
      List.Forall₂ Row (raws.map fun p => copy p.1 p.2) mid := by
  induction hraws with
  | nil => exact ⟨[], rfl, .nil⟩
  | @cons raw member raws members hraw _ ih =>
    obtain ⟨mid, hmid, hrows⟩ := ih fun raw m hm => hrow raw m (List.mem_cons_of_mem _ hm)
    obtain ⟨value', hvalue, hfirst⟩ := hrow raw member List.mem_cons_self hraw
    exact ⟨(member.1, value') :: mid, ⟨value', mid, rfl, hvalue, hmid⟩, .cons hfirst hrows⟩

theorem keys_of_rows {α : Type} {keyOf : α → Bytes} {Row : α → Bytes × Value → Prop}
    {entries : List α} {members : List (Bytes × Value)}
    (hrows : List.Forall₂ Row entries members) (hkey : ∀ e m, Row e m → keyOf e = m.1) :
    members.map Prod.fst = entries.map keyOf := by
  induction hrows with
  | nil => rfl
  | cons hrow _ ih => rw [List.map_cons, List.map_cons, ih, hkey _ _ hrow]

/-- Entries of members, by the keys. -/
theorem sortEntries_key {core : Core σ} (hsort : Sorts core.sortWithCompare) {α : Type}
    {less : α → α → Outcome Bool} {keyOf : α → Bytes} {Row : α → Bytes × Value → Prop}
    {entries : List α} {members : List (Bytes × Value)}
    (hrows : List.Forall₂ Row entries members) (hkey : ∀ e m, Row e m → keyOf e = m.1)
    (hless : ∀ a ∈ entries, ∀ b ∈ entries,
      less a b = .ok (decide (keyOrder (keyOf a) < keyOrder (keyOf b)))) :
    ∃ sorted out, sortEntries core less entries = pure sorted ∧ List.Forall₂ Row sorted out ∧
      SortedByKey members out := by
  have hnofault : ¬∃ a ∈ entries, ∃ b ∈ entries, less a b = .fault := by
    rintro ⟨a, ha, b, hb, hfault⟩
    rw [hless a ha b hb] at hfault
    cases hfault
  have hcompare : ∀ a ∈ entries, ∀ b ∈ entries, decide (less a b = .ok true) = true ↔
      keyOrder (keyOf a) < keyOrder (keyOf b) := by
    intro a ha b hb
    rw [decide_eq_true_eq, hless a ha b hb, Outcome.ok.injEq, decide_eq_true_eq]
  obtain ⟨hperm, hsorted⟩ := hsort.by_key hcompare
  obtain ⟨out, hout, hback⟩ := List.perm_comp_forall₂ hperm hrows
  refine ⟨_, out, if_neg hnofault, hout, hback.symm, ?_⟩
  have hmapped : (out.map Prod.fst).Pairwise fun a b => keyOrder a ≤ keyOrder b := by
    rw [keys_of_rows hout hkey]
    exact List.pairwise_map.mpr hsorted
  rw [List.pairwise_map] at hmapped
  exact hmapped

/-- Entries in the order of their places stay in it. -/
theorem sortEntries_offset {core : Core σ} (hsort : Sorts core.sortWithCompare)
    {entries : List SortEntry}
    (h : entries.Pairwise fun a b => a.entryOffset < b.entryOffset) :
    sortEntries core sortLessByOffset entries = pure entries := by
  have hnofault : ¬∃ a ∈ entries, ∃ b ∈ entries, sortLessByOffset a b = .fault := by
    rintro ⟨a, -, b, -, hfault⟩
    cases hfault
  have hcompare : ∀ a ∈ entries, ∀ b ∈ entries,
      decide (sortLessByOffset a b = .ok true) = true ↔
        a.entryOffset.toNat < b.entryOffset.toNat := by
    intro a _ b _
    rw [decide_eq_true_eq, sortLessByOffset, Outcome.ok.injEq, decide_eq_true_eq,
      UInt64.lt_iff_toNat_lt]
  obtain ⟨hperm, hsorted⟩ := hsort.by_key hcompare
  have hle : entries.Pairwise fun a b => a.entryOffset.toNat ≤ b.entryOffset.toNat :=
    h.imp fun hlt => Nat.le_of_lt (UInt64.lt_iff_toNat_lt.mp hlt)
  have hnodup : (entries.map fun e => e.entryOffset.toNat).Nodup := by
    rw [List.Nodup, List.pairwise_map]
    exact h.imp fun hlt => Nat.ne_of_lt (UInt64.lt_iff_toNat_lt.mp hlt)
  rw [sortEntries, if_neg hnofault, ← eq_of_sorted_of_perm hnodup hperm.symm hle hsorted]

/-! ## Values -/

section

variable {core : Core σ} {options : Option ExportOptions} {r : Reader} {hash64 : Bytes → UInt64}

/-- What stands for a member: its key in the pool, and an offset for which the same calls
are made as for its value. -/
def JsonRow (core : Core σ) (options : Option ExportOptions) (r : Reader)
    (child : UInt64 → UInt32 → ExportM σ Unit) (entry : SortEntry) (member : Bytes × Value) :
    Prop :=
  KeyAt r entry.keyPoolOffset entry.keyLength member.1 ∧
    ∀ depth, child entry.valueOffset depth = printValue core options member.2 depth

theorem exists_row {α β : Type} {R : α → β → Prop} {l : List α} {l' : List β}
    (h : List.Forall₂ R l l') {a : α} (ha : a ∈ l) : ∃ b, R a b := by
  induction h with
  | nil => cases ha
  | cons hab _ ih =>
    rcases List.mem_cons.mp ha with rfl | ha
    · exact ⟨_, hab⟩
    · exact ih ha

/-- Rows of members are put into the order of the export. -/
theorem arrangeEntries_rows (hsort : Sorts core.sortWithCompare)
    {child : UInt64 → UInt32 → ExportM σ Unit} {entries : List SortEntry}
    {members : List (Bytes × Value)}
    (hrows : List.Forall₂ (JsonRow core options r child) entries members)
    (hplaces : entries.Pairwise fun a b => a.entryOffset < b.entryOffset) :
    ∃ arranged out, arrangeEntries core options r entries = pure arranged ∧
      List.Forall₂ (JsonRow core options r child) arranged out ∧
      exportOrder options members out := by
  rw [exportOrder, arrangeEntries]
  by_cases hsorted : sortKeysOf options = true
  · rw [if_pos hsorted, if_pos hsorted]
    have hkey : ∀ e m, JsonRow core options r child e m →
        keyBytes r e.keyPoolOffset e.keyLength = m.1 := fun e m hrow => hrow.1.keyBytes_eq
    refine sortEntries_key hsort hrows hkey fun a ha b hb => ?_
    obtain ⟨m, hm⟩ := exists_row hrows ha
    obtain ⟨n, hn⟩ := exists_row hrows hb
    rw [hm.1.keyBytes_eq, hn.1.keyBytes_eq]
    exact keyLess_eq hm.1 hn.1
  · rw [if_neg hsorted, if_neg hsorted]
    exact ⟨entries, members, sortEntries_offset hsort hplaces, hrows, rfl⟩

/-- The loop over entries makes the calls for their members. -/
theorem exportEntriesLoop_rows {child : UInt64 → UInt32 → ExportM σ Unit}
    {entries : List SortEntry} {members : List (Bytes × Value)} (depth : UInt32)
    (hrows : List.Forall₂ (JsonRow core options r child) entries members) : ∀ first,
      exportEntriesLoop core options r child depth first entries =
        printMembers core options members first depth := by
  induction hrows with
  | nil => exact fun _ => rfl
  | @cons entry member entries members hrow _ ih =>
    intro first
    obtain ⟨hkey, hvalue⟩ := hrow
    obtain ⟨key, value⟩ := member
    rw [exportEntriesLoop, printMembers, hkey.length_eq, writeJsonString_load core options
      hkey.load_eq, hvalue, ih]

/-- What the exporters read of a scalar, by its kind. -/
def ScalarAt (r : Reader) (offset : UInt64) : Scalar → Prop
  | .null | .bool _ => True
  | .int64 value => scalarInt64At r offset = .ok value
  | .uint64 value => scalarUint64At r offset = .ok value
  | .float64 bits => scalarFloat64At r offset = .ok bits
  | .string value => ∃ range, scalarStringAt r offset = .ok range ∧
      range.length.toNat = value.length ∧ load r.base range.offset value.length = .ok value

theorem HoldsScalar.scalarAt {offset : UInt64} {s : Scalar} (h : HoldsScalar r offset s) :
    ScalarAt r offset s := by
  have hread := h.read
  cases s with
  | null => trivial
  | bool value => trivial
  | int64 value =>
    obtain ⟨v, hv, heq⟩ := bind_eq_ok.mp hread
    cases heq
    exact hv
  | uint64 value =>
    obtain ⟨v, hv, heq⟩ := bind_eq_ok.mp hread
    cases heq
    exact hv
  | float64 bits =>
    obtain ⟨v, hv, heq⟩ := bind_eq_ok.mp hread
    cases heq
    exact hv
  | string value =>
    obtain ⟨range, hrange, hbytes⟩ := bind_eq_ok.mp hread
    obtain ⟨bytes, hload, heq⟩ := bind_eq_ok.mp hbytes
    cases heq
    obtain ⟨-, hlength⟩ := hasAt_of_load hload
    refine ⟨range, hrange, hlength.symm, ?_⟩
    rw [hlength]
    exact hload

/-- A scalar of the file is written as the scalar. -/
theorem exportValue_scalar {offset : UInt64} {s : Scalar} (h : HoldsScalar r offset s)
    (levels : Nat) (depth : UInt32) :
    exportValue core options r (levels + 1) offset depth = printScalar core options s := by
  have hscalar := h.scalarAt
  rw [exportValue, h.kindAt]
  cases s with
  | null => rfl
  | bool value => cases value <;> rfl
  | string value =>
    obtain ⟨range, hrange, hlength, hload⟩ := hscalar
    have hwrite := writeJsonString_load core options hload
    simp only [fromReader, Scalar.kind, pure_bind, hrange, printScalar, hlength, hwrite]
  | _ =>
    rw [ScalarAt] at hscalar
    simp only [fromReader, Scalar.kind, pure_bind, hscalar, printScalar]

/-- The loop over elements makes the calls for rearranged elements. -/
theorem exportElementsLoop_holds {child : UInt64 → UInt32 → ExportM σ Unit} :
    ∀ {elements : List Value} {start : UInt64}, HoldsElements hash64 r start elements →
      (∀ e ∈ elements, ∀ offset, Holds hash64 r offset e → ∃ value',
        Rearranged (exportOrder options) e value' ∧
          ∀ depth, child offset depth = printValue core options value' depth) →
      ∃ out, RearrangedElements (exportOrder options) elements out ∧
        out.length = elements.length ∧ ∀ first depth,
          exportElementsLoop core options r child depth first elements.length start =
            printElements core options out first depth
  | [], _, _, _ => ⟨[], rfl, rfl, fun _ _ => rfl⟩
  | value :: elements, start, h, hchild => by
    rw [HoldsElements] at h
    obtain ⟨⟨-, offset, hoffset, hvalue⟩, hrest⟩ := h
    obtain ⟨hfirst, hothers⟩ := List.forall_mem_cons.mp hchild
    obtain ⟨out, hout, hlength, hprint⟩ := exportElementsLoop_holds hrest hothers
    obtain ⟨value', hvalue', hchildValue⟩ := hfirst offset hvalue
    refine ⟨value' :: out, ⟨value', out, rfl, hvalue', hout⟩, ?_, fun first depth => ?_⟩
    · rw [List.length_cons, List.length_cons, hlength]
    · have hnext : exportElementsLoop core options r child depth false elements.length
          (start + arrayElementSize) = _ := hprint false depth
      rw [List.length_cons, exportElementsLoop, printElements, hoffset, hnext]
      simp only [fromReader, pure_bind, hchildValue]

/-- On a file that holds a value, the exporter makes the calls for the value with its members
in the order of the export. -/
theorem exportValue_holds (hsort : Sorts core.sortWithCompare) {levels : Nat} :
    ∀ {value : Value} {offset : UInt64}, value.depth ≤ levels → Holds hash64 r offset value →
      ∃ value', Rearranged (exportOrder options) value value' ∧ ∀ depth,
        exportValue core options r levels offset depth = printValue core options value' depth := by
  induction levels with
  | zero =>
    intro value offset hdepth
    cases value <;> cases hdepth
  | succ levels ih =>
    intro value offset hdepth h
    cases value with
    | scalar s =>
      rw [Holds] at h
      refine ⟨.scalar s, rfl, fun depth => ?_⟩
      rw [exportValue_scalar h, printValue]
    | block members =>
      rw [Holds] at h
      obtain ⟨hkind, header, start, hbody, hcount, hmembers⟩ := h
      rw [Value.depth] at hdepth
      obtain ⟨raws, hcopy, hraws, -, hplaces⟩ := copyEntries_holds sortEntryOf hmembers
      have hchild : ∀ raw, ∀ m ∈ members, RawAt hash64 r raw m → ∃ value',
          Rearranged (exportOrder options) m.2 value' ∧ JsonRow core options r
            (exportValue core options r levels) (sortEntryOf raw.1 raw.2) (m.1, value') := by
        intro raw m hm hraw
        obtain ⟨value', hvalue, hprint⟩ := ih (by have hle := le_membersDepth hm; omega) hraw.2
        exact ⟨value', hvalue, hraw.1.keyAt, hprint⟩
      obtain ⟨mid, hmid, hrows⟩ := rows_of_raws hraws hchild
      obtain ⟨arranged, out, harrange, hout, horder⟩ := arrangeEntries_rows hsort hrows
        (List.pairwise_map.mpr hplaces)
      have hlength : out.length = members.length := by
        rw [← (exportOrder.perm horder).length_eq, hmid.length_eq]
      refine ⟨.block out, ⟨mid, out, rfl, hmid, horder⟩, fun depth => ?_⟩
      have hzero : header.childCount = 0 ↔ out.length = 0 := by
        rw [hlength, ← hcount]
        exact ⟨fun heq => by rw [heq]; rfl, fun heq => UInt32.toNat_inj.mp heq⟩
      rw [exportValue, hkind, printValue]
      simp only [fromReader, pure_bind, exportBlock, hbody, hzero, hcount, hcopy, harrange,
        exportEntriesLoop_rows _ hout, hlength]
    | array elements =>
      rw [Holds] at h
      obtain ⟨hkind, header, start, hbody, hcount, helements⟩ := h
      rw [Value.depth] at hdepth
      obtain ⟨out, hout, hlength, hprint⟩ := exportElementsLoop_holds helements
        fun e he offset he' => ih (by have hle := le_elementsDepth he; omega) he'
      refine ⟨.array out, ⟨out, rfl, hout⟩, fun depth => ?_⟩
      have hzero : header.elementCount = 0 ↔ out.length = 0 := by
        rw [hlength, ← hcount]
        exact ⟨fun heq => by rw [heq]; rfl, fun heq => UInt32.toNat_inj.mp heq⟩
      rw [exportValue, hkind, printValue]
      simp only [fromReader, pure_bind, exportArray, hbody, hzero, hcount, hprint]

end

/-! ## The root index -/

section

variable {hash64 : Bytes → UInt64} {r : Reader} {document : Document}

/-- The root index of a file holds a document. -/
structure HoldsDocument (hash64 : Bytes → UInt64) (r : Reader) (document : Document) : Prop where
  count : r.header.rootCount.toNat = document.length
  small : document.length < 2 ^ 32
  members : HoldsMembers hash64 r r.header.rootIndexOffset document

theorem HoldsDocument.count_eq_zero (h : HoldsDocument hash64 r document) :
    r.header.rootCount = 0 ↔ document.length = 0 := by
  rw [← h.count]
  exact ⟨fun heq => by rw [heq]; rfl, fun heq => UInt64.toNat_inj.mp heq⟩

/-- The size of an array with something small for every root. -/
theorem HoldsDocument.toNat_count_mul (h : HoldsDocument hash64 r document) {size : UInt64}
    (hsize : size.toNat < 2 ^ 32) :
    (r.header.rootCount * size).toNat = document.length * size.toNat := by
  have hlt := Nat.mul_lt_mul'' h.small hsize
  rw [UInt64.toNat_mul, h.count]
  exact Nat.mod_eq_of_lt (by omega)

/-- On a file that holds a document, the exporter makes the calls for the document with its
members in the order of the export. -/
theorem exportRoots_holds {core : Core σ} {options : Option ExportOptions}
    (hsort : Sorts core.sortWithCompare) (h : HoldsDocument hash64 r document) {levels : Nat}
    (hlevels : membersDepth document ≤ levels) :
    ∃ document' : Document, RearrangedDocument (exportOrder options) document document' ∧
      exportRoots core options r levels = printRoots core options document' := by
  obtain ⟨raws, hcopy, hraws, -, hplaces⟩ := copyEntries_holds sortEntryOf h.members
  have hchild : ∀ raw, ∀ m ∈ document, RawAt hash64 r raw m → ∃ value',
      Rearranged (exportOrder options) m.2 value' ∧ JsonRow core options r
        (exportValue core options r levels) (sortEntryOf raw.1 raw.2) (m.1, value') := by
    intro raw m hm hraw
    have hdepth : m.2.depth ≤ levels := (le_membersDepth hm).trans hlevels
    obtain ⟨value', hvalue, hprint⟩ := exportValue_holds hsort hdepth hraw.2
    exact ⟨value', hvalue, hraw.1.keyAt, hprint⟩
  obtain ⟨mid, hmid, hrows⟩ := rows_of_raws hraws hchild
  obtain ⟨arranged, out, harrange, hout, horder⟩ := arrangeEntries_rows hsort hrows
    (List.pairwise_map.mpr hplaces)
  have hlength : out.length = document.length := by
    rw [← (exportOrder.perm horder).length_eq, hmid.length_eq]
  have hroom : (r.header.rootCount * 32).toNat = document.length * 32 :=
    h.toNat_count_mul (by decide)
  refine ⟨out, ⟨mid, hmid, horder⟩, ?_⟩
  rw [exportRoots, printRoots]
  simp only [h.count_eq_zero, h.count, hcopy, hroom, fromReader, pure_bind, harrange,
    exportEntriesLoop_rows _ hout, hlength]

end

/-- The file of a document holds the document in the order of a file. -/
theorem holdsDocument_document {hash64 : Bytes → UInt64} {document : Document} {b : Buffer}
    (hbytes : b.bytes = documentFile hash64 document)
    (hsize : documentSize hash64 document < 2 ^ 32) :
    HoldsDocument hash64 { base := b, header := documentHeader hash64 document }
      (document.inFileOrder hash64) := by
  obtain ⟨hnodes, hstrings, hfooter, hend⟩ := document_parts hash64 document
  have hlength : (document.inFileOrder hash64).length = document.length := by
    rw [Document.inFileOrder, length_stableSort, length_membersInFileOrder]
  refine ⟨?_, by omega, document_holds hbytes hsize⟩
  rw [hlength]
  exact toNat_ofNat_of_lt64 (by omega)

theorem membersDepth_document {hash64 : Bytes → UInt64} {document : Document} :
    membersDepth (document.inFileOrder hash64) = membersDepth document := by
  rw [Document.inFileOrder, membersDepth_perm (stableSort_perm _ _), membersDepth_inFileOrder]

end Hrbl
