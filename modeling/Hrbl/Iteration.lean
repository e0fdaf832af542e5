import Hrbl.Trails
import Hrbl.Lib.Cursor

/-!
# Iteration

`bc_hrbl_iter_next` against the accessors by index, in any file that can be opened. The iterator
loads entries, checks bounds and steps by itself; what it hands out is what
`bc_hrbl_reader_block_entry_at_offset` or `bc_hrbl_reader_array_at_offset` and
`bc_hrbl_reader_kind_at` say, up to the first of them that fails.
-/

namespace Hrbl

open Lib Lib.Outcome

/-! ## Items by index -/

/-- How many items a container has. -/
def childCountAt (r : Reader) (container : ValueRef) : Outcome UInt32 :=
  if container.kind = .block then blockChildCountAt r container.nodeOffset
  else arrayLengthAt r container.nodeOffset

/-- The item of a container at an index: the value with its kind, and the key range of an
entry. -/
def itemAt (r : Reader) (container : ValueRef) (index : UInt32) :
    Outcome (ValueRef × Option Range) :=
  if container.kind = .block then do
    let (key, offset) ← blockEntryAtOffset r container.nodeOffset index
    let kind ← kindAt r offset
    return ({ nodeOffset := offset, kind }, some key)
  else do
    let offset ← arrayAtOffset r container.nodeOffset index
    let kind ← kindAt r offset
    return ({ nodeOffset := offset, kind }, none)

/-! ## Bounds -/

/-- Where the sections tile the file, asking for a kind reads inside it. -/
theorem kindAt_safe {r : Reader} (h : r.header.SectionsTile r.size) (offset : UInt64) :
    Safe (kindAt r offset) := by
  unfold kindAt
  split
  · exact safe_no
  · rename_i hin
    rw [not_or, UInt64.not_lt, ge_iff_le, UInt64.not_le, UInt64.lt_iff_toNat_lt,
      UInt64.toNat_add] at hin
    have hnodes := h.stringsOffset
    have hfooter := h.footerOffset
    have hend := h.footerEnd
    have hsize : r.size.toNat = r.base.bytes.length := Buffer.toNat_size r.base
    have hlt := r.base.length_lt
    refine Safe.bind (loadByte_safe.mpr (by omega)) ?_
    intro byte hbyte
    split
    · exact safe_ok _
    · exact safe_no

theorem readEntry_safe {r : Reader} {offset : UInt64} (h : offset.toNat < 2 ^ 64 - 24) :
    Safe (readEntry r offset) := by
  unfold readEntry
  split
  · exact safe_no
  · rename_i hin
    have h24 : rootEntrySize.toNat = 24 := rfl
    rw [gt_iff_lt, UInt64.not_lt, UInt64.le_iff_toNat_le, UInt64.toNat_add, h24,
      Buffer.toNat_size] at hin
    rw [loadEntry]
    exact Safe.bind (load_safe.mpr (by omega)) fun _ _ => safe_ok _

theorem entryKeyRange_safe (r : Reader) (entry : Entry) : Safe (entryKeyRange r entry) := by
  unfold entryKeyRange
  dsimp only
  split
  · exact safe_no
  · exact safe_ok _

/-- The header of a container is behind its kind byte, and the table behind the header. -/
theorem toNat_body {r : Reader} {offset : UInt64} (h : ¬offset ≥ r.size) :
    (alignUp (offset + 1) 8 + 8).toNat = alignUpNat (offset.toNat + 1) 8 + 8 ∧
      alignUpNat (offset.toNat + 1) 8 < 2 ^ 63 + 8 := by
  have hlt := r.base.length_lt
  have hone : (1 : UInt64).toNat = 1 := rfl
  have height : (8 : UInt64).toNat = 8 := rfl
  rw [ge_iff_le, UInt64.not_le, UInt64.lt_iff_toNat_lt, Buffer.toNat_size] at h
  have hnext : (offset + 1).toNat = offset.toNat + 1 := by
    rw [UInt64.toNat_add, hone]
    omega
  have hsmall := alignUpNat_lt (show 0 < 8 by omega) (offset.toNat + 1)
  rw [UInt64.toNat_add, toNat_alignUp_eight (by omega), hnext, height]
  omega

/-- The entries of a block are in the file. -/
theorem blockBodyOffsets_inside {r : Reader} {offset start : UInt64} {header : BlockHeader}
    (h : blockBodyOffsets r offset = .ok (header, start)) :
    start.toNat + header.childCount.toNat * 24 ≤ r.base.bytes.length := by
  unfold blockBodyOffsets at h
  split at h
  · cases h
  rename_i hoffset
  obtain ⟨byte, -, h⟩ := bind_eq_ok.mp h
  split at h
  · cases h
  dsimp only at h
  split at h
  · cases h
  obtain ⟨loaded, -, h⟩ := bind_eq_ok.mp h
  split at h
  · cases h
  rename_i hend
  cases h
  obtain ⟨hstart, hsmall⟩ := toNat_body hoffset
  have hcount := header.childCount.toNat_lt
  have h24 : blockEntrySize.toNat = 24 := rfl
  rw [gt_iff_lt, UInt64.not_lt, UInt64.le_iff_toNat_le, UInt64.toNat_add, UInt64.toNat_mul,
    UInt32.toNat_toUInt64, h24, hstart, Buffer.toNat_size] at hend
  omega

/-- The elements of an array are in the file. -/
theorem arrayBodyOffsets_inside {r : Reader} {offset start : UInt64} {header : ArrayHeader}
    (h : arrayBodyOffsets r offset = .ok (header, start)) :
    start.toNat + header.elementCount.toNat * 8 ≤ r.base.bytes.length := by
  unfold arrayBodyOffsets at h
  split at h
  · cases h
  rename_i hoffset
  obtain ⟨byte, -, h⟩ := bind_eq_ok.mp h
  split at h
  · cases h
  dsimp only at h
  split at h
  · cases h
  obtain ⟨loaded, -, h⟩ := bind_eq_ok.mp h
  split at h
  · cases h
  rename_i hend
  cases h
  obtain ⟨hstart, hsmall⟩ := toNat_body hoffset
  have hcount := header.elementCount.toNat_lt
  have h8 : arrayElementSize.toNat = 8 := rfl
  rw [gt_iff_lt, UInt64.not_lt, UInt64.le_iff_toNat_le, UInt64.toNat_add, UInt64.toNat_mul,
    UInt32.toNat_toUInt64, h8, hstart, Buffer.toNat_size] at hend
  omega

/-! ## States of an iterator -/

/-- The iterator with `i` of its items handed out. -/
def iterState (start width : UInt64) (count : UInt32) (isBlock : Bool) (i : Nat) : Iter where
  cursorOffset := start + UInt64.ofNat i * width
  endOffset := start + count.toUInt64 * width
  remaining := UInt32.ofNat (count.toNat - i)
  isBlock := isBlock

section

variable {start width : UInt64} {count : UInt32} {isBlock : Bool} {i : Nat}

theorem iterState_remaining (hi : i < count.toNat) :
    (iterState start width count isBlock i).remaining ≠ 0 ∧
      (iterState start width count isBlock i).remaining - 1 =
        UInt32.ofNat (count.toNat - (i + 1)) := by
  have hlt := count.toNat_lt
  have hone : (1 : UInt32).toNat = 1 := rfl
  have hleft : (UInt32.ofNat (count.toNat - i)).toNat = count.toNat - i :=
    toNat_ofNat_of_lt (by omega)
  constructor
  · intro hzero
    have hnat := congrArg UInt32.toNat hzero
    rw [iterState, hleft] at hnat
    change count.toNat - i = 0 at hnat
    omega
  · apply UInt32.toNat_inj.mp
    have hle : (1 : UInt32) ≤ UInt32.ofNat (count.toNat - i) := by
      rw [UInt32.le_iff_toNat_le, hleft, hone]
      omega
    rw [iterState, UInt32.toNat_sub_of_le _ _ hle, hleft, hone, toNat_ofNat_of_lt (by omega)]
    omega

theorem iterState_next (hi : i < count.toNat) :
    { iterState start width count isBlock i with
      cursorOffset := (iterState start width count isBlock i).cursorOffset + width
      remaining := (iterState start width count isBlock i).remaining - 1 } =
        iterState start width count isBlock (i + 1) := by
  rw [(iterState_remaining hi).2]
  simp only [iterState, Iter.mk.injEq, and_true]
  rw [UInt64.ofNat_add, UInt64.add_mul, ← UInt64.add_assoc]
  rw [show UInt64.ofNat 1 = 1 from rfl, UInt64.one_mul]

theorem iterState_end (r : Reader) :
    iterNext r (iterState start width count isBlock count.toNat) = .no := by
  rw [iterNext, if_pos]
  rw [iterState, Nat.sub_self]
  rfl

end

/-! ## Agreement -/

/-- On a block, a call of the iterator is the access to an entry. -/
theorem iterNext_block {r : Reader} {container : ValueRef} (hkind : container.kind = .block)
    {header : BlockHeader} {start : UInt64}
    (hbody : blockBodyOffsets r container.nodeOffset = .ok (header, start)) {i : Nat}
    (hi : i < header.childCount.toNat) :
    iterNext r (iterState start blockEntrySize header.childCount true i) =
      (itemAt r container (UInt32.ofNat i) >>= fun item =>
        .ok (iterState start blockEntrySize header.childCount true (i + 1), item)) := by
  have hlt := header.childCount.toNat_lt
  have hindex : (UInt32.ofNat i).toNat = i := toNat_ofNat_of_lt (by omega)
  have hwide : (UInt32.ofNat i).toUInt64 = UInt64.ofNat i := by
    apply UInt64.toNat_inj.mp
    rw [UInt32.toNat_toUInt64, hindex, toNat_ofNat_of_lt64 (by omega)]
  have hin : ¬UInt32.ofNat i ≥ header.childCount := by
    rw [ge_iff_le, UInt32.le_iff_toNat_le, hindex]
    omega
  have hblock : (iterState start blockEntrySize header.childCount true i).isBlock = true := rfl
  rw [iterNext, if_neg (iterState_remaining hi).1, if_pos hblock, itemAt, if_pos hkind,
    blockEntryAtOffset, hbody, ok_bind]
  simp only [if_neg hin, hwide, iterState_next hi]
  rw [show (iterState start blockEntrySize header.childCount true i).cursorOffset =
    start + UInt64.ofNat i * blockEntrySize from rfl]
  cases readEntry r (start + UInt64.ofNat i * blockEntrySize) with
  | fault => rfl
  | no => rfl
  | ok entry =>
    simp only [ok_bind]
    cases entryKeyRange r entry with
    | fault => rfl
    | no => rfl
    | ok key =>
      simp only [ok_bind, pure_eq]
      cases kindAt r entry.valueOffset with
      | fault => rfl
      | no => rfl
      | ok kind => rfl

/-- On an array, a call of the iterator is the access to an element. -/
theorem iterNext_array {r : Reader} {container : ValueRef} (hkind : container.kind ≠ .block)
    {header : ArrayHeader} {start : UInt64}
    (hbody : arrayBodyOffsets r container.nodeOffset = .ok (header, start)) {i : Nat}
    (hi : i < header.elementCount.toNat) :
    iterNext r (iterState start arrayElementSize header.elementCount false i) =
      (itemAt r container (UInt32.ofNat i) >>= fun item =>
        .ok (iterState start arrayElementSize header.elementCount false (i + 1), item)) := by
  have hlt := header.elementCount.toNat_lt
  have hindex : (UInt32.ofNat i).toNat = i := toNat_ofNat_of_lt (by omega)
  have hwide : (UInt32.ofNat i).toUInt64 = UInt64.ofNat i := by
    apply UInt64.toNat_inj.mp
    rw [UInt32.toNat_toUInt64, hindex, toNat_ofNat_of_lt64 (by omega)]
  have hin : ¬UInt32.ofNat i ≥ header.elementCount := by
    rw [ge_iff_le, UInt32.le_iff_toNat_le, hindex]
    omega
  have harray : ¬(iterState start arrayElementSize header.elementCount false i).isBlock = true :=
    Bool.false_ne_true
  -- the bound that the iterator checks again holds of every element
  have hroom : ¬(iterState start arrayElementSize header.elementCount false i).cursorOffset + 8 >
      r.size := by
    have hinside := arrayBodyOffsets_inside hbody
    have hsize := r.base.length_lt
    have h8 : arrayElementSize.toNat = 8 := rfl
    rw [gt_iff_lt, UInt64.lt_iff_toNat_lt, UInt64.toNat_add, iterState, UInt64.toNat_add,
      UInt64.toNat_mul, toNat_ofNat_of_lt64 (by omega), h8, Buffer.toNat_size]
    omega
  rw [iterNext, if_neg (iterState_remaining hi).1, if_neg harray, if_neg hroom, itemAt,
    if_neg hkind, arrayAtOffset, hbody, ok_bind]
  simp only [if_neg hin, hwide, iterState_next hi]
  rw [show (iterState start arrayElementSize header.elementCount false i).cursorOffset =
    start + UInt64.ofNat i * arrayElementSize from rfl]
  cases loadU64 r.base (start + UInt64.ofNat i * arrayElementSize) with
  | fault => rfl
  | no => rfl
  | ok offset =>
    simp only [ok_bind, pure_eq]
    cases kindAt r offset with
    | fault => rfl
    | no => rfl
    | ok kind => rfl

theorem itemAt_safe {r : Reader} (htile : r.header.SectionsTile r.size) {container : ValueRef}
    {count : UInt32} (hcount : childCountAt r container = .ok count) {i : Nat}
    (hi : i < count.toNat) : Safe (itemAt r container (UInt32.ofNat i)) := by
  have hlt := count.toNat_lt
  have hsize := r.base.length_lt
  have hindex : (UInt32.ofNat i).toNat = i := toNat_ofNat_of_lt (by omega)
  unfold childCountAt at hcount
  unfold itemAt
  split
  · rename_i hkind
    rw [if_pos hkind, blockChildCountAt] at hcount
    obtain ⟨⟨header, start⟩, hbody, heq⟩ := bind_eq_ok.mp hcount
    cases heq
    have hinside := blockBodyOffsets_inside hbody
    have h24 : blockEntrySize.toNat = 24 := rfl
    rw [blockEntryAtOffset, hbody, ok_bind]
    simp only
    have hentry : (start + (UInt32.ofNat i).toUInt64 * blockEntrySize).toNat < 2 ^ 64 - 24 := by
      rw [UInt64.toNat_add, UInt64.toNat_mul, UInt32.toNat_toUInt64, hindex, h24]
      omega
    split
    · exact safe_no
    · refine Safe.bind (Safe.bind (readEntry_safe hentry) ?_) ?_
      · intro entry _
        exact Safe.bind (entryKeyRange_safe r entry) fun _ _ => safe_ok _
      · intro item _
        exact Safe.bind (kindAt_safe htile _) fun _ _ => safe_ok _
  · rename_i hkind
    rw [if_neg hkind, arrayLengthAt] at hcount
    obtain ⟨⟨header, start⟩, hbody, heq⟩ := bind_eq_ok.mp hcount
    cases heq
    have hinside := arrayBodyOffsets_inside hbody
    have h8 : arrayElementSize.toNat = 8 := rfl
    rw [arrayAtOffset, hbody, ok_bind]
    simp only
    split
    · exact safe_no
    · refine Safe.bind ?_ ?_
      · rw [loadU64]
        refine Safe.bind (load_safe.mpr ?_) fun _ _ => safe_ok _
        rw [UInt64.toNat_add, UInt64.toNat_mul, UInt32.toNat_toUInt64, hindex, h8]
        omega
      · intro offset _
        exact Safe.bind (kindAt_safe htile _) fun _ _ => safe_ok _

/-- An iterator that is opened follows the accesses by index. -/
theorem iterator_follows {r : Reader} {container : ValueRef} {iter : Iter}
    (hiter : iterBlock r container = .ok iter ∨ iterArray r container = .ok iter) :
    ∃ count state, childCountAt r container = .ok count ∧ state 0 = iter ∧
      Cursor.Follows (iterNext r) state (fun i => itemAt r container (UInt32.ofNat i))
        count.toNat := by
  have hstart : ∀ (start width : UInt64), start + UInt64.ofNat 0 * width = start := by
    intro start width
    rw [show UInt64.ofNat 0 = 0 from rfl, UInt64.zero_mul, UInt64.add_zero]
  rcases hiter with hiter | hiter
  · unfold iterBlock at hiter
    split at hiter
    · cases hiter
    rename_i hkind
    obtain ⟨⟨header, start⟩, hbody, heq⟩ := bind_eq_ok.mp hiter
    cases heq
    refine ⟨header.childCount, iterState start blockEntrySize header.childCount true, ?_, ?_,
      fun i hi => iterNext_block (not_not.mp hkind) hbody hi, iterState_end r⟩
    · rw [childCountAt, if_pos (not_not.mp hkind), blockChildCountAt, hbody]
      rfl
    · rw [iterState, hstart, Nat.sub_zero, UInt32.ofNat_toNat]
  · unfold iterArray at hiter
    split at hiter
    · cases hiter
    rename_i hkind
    have hnot : container.kind ≠ .block := by
      rw [not_not.mp hkind]
      exact Kind.noConfusion
    obtain ⟨⟨header, start⟩, hbody, heq⟩ := bind_eq_ok.mp hiter
    cases heq
    refine ⟨header.elementCount, iterState start arrayElementSize header.elementCount false, ?_, ?_,
      fun i hi => iterNext_array hnot hbody hi, iterState_end r⟩
    · rw [childCountAt, if_neg hnot, arrayLengthAt, hbody]
      rfl
    · rw [iterState, hstart, Nat.sub_zero, UInt32.ofNat_toNat]

/-- On any file that can be opened and whose section sums do not wrap, the calls of an iterator
hand out what the accessors say by index, in order and up to the first failure; every later
call fails and leaves the iterator where it is. -/
theorem iteration_by_index {b : Buffer} {r : Reader}
    (hopen : openBuffer true b = .ok r) (hsums : r.header.SumsFit) {container : ValueRef}
    {iter : Iter} (hiter : iterBlock r container = .ok iter ∨ iterArray r container = .ok iter) :
    ∃ count items last, childCountAt r container = .ok count ∧
      Cursor.Front (fun i => itemAt r container (UInt32.ofNat i)) count.toNat items ∧
      iterNext r last = .no ∧
      ∀ n, ∃ iter', Cursor.calls (iterNext r) n iter =
          .ok ((items.take n).map some ++ List.replicate (n - items.length) none, iter') ∧
        (items.length ≤ n → iter' = last) := by
  obtain ⟨hbase, henvelope⟩ := openBuffer_eq_ok.mp hopen
  have hsize : (160 : UInt64) ≤ b.size := by
    rw [UInt64.le_iff_toNat_le, Buffer.toNat_size]
    exact henvelope.size_le
  have htile : r.header.SectionsTile r.size := by
    rw [Reader.size, hbase]
    exact (henvelope.layout.sectionsTile_iff hsize).mpr hsums
  obtain ⟨count, state, hcount, rfl, hfollows⟩ := iterator_follows hiter
  obtain ⟨items, hitems⟩ := Cursor.exists_front fun i hi => itemAt_safe htile hcount hi
  refine ⟨count, items, state items.length, hcount, hitems, hfollows.next_front hitems, ?_⟩
  intro n
  refine ⟨_, hfollows.calls_eq hitems n, ?_⟩
  intro hle
  rw [Nat.min_eq_right hle]

/-- A file whose root is an array of four elements; the third lies behind the nodes section. -/
def scattered : Parts where
  entries := [⟨0, 202, 1, 159⟩]
  nodes := List.replicate 7 0 ++ ([Kind.array.byte] ++ (le32 4 ++ le32 0) ++
    (le64 200 ++ le64 201 ++ le64 202 ++ le64 200)) ++ [Kind.null.byte, Kind.true.byte]
  strings := [[0x61]]

theorem scattered_sound : scattered.Sound where
  size_lt := by decide +kernel
  sorted := List.pairwise_singleton _ _
  value := by decide +kernel
  key := by decide +kernel
  utf8 := by
    intro s hs
    have hascii : ∀ s ∈ scattered.strings, ∀ b ∈ s, b < 128 := by decide +kernel
    exact isUtf8_of_ascii (hascii s hs)
  length_le := by decide +kernel

/-- Two of the four elements are handed out; the fourth, which the accessors do give, is not. -/
theorem iteration_by_index_scattered : ∃ (b : Buffer) (r : Reader) (iter : Iter),
    verifyBuffer (fun _ => 0) b = .ok .ok ∧ openBuffer true b = .ok r ∧
      iterArray r ⟨159, .array⟩ = .ok iter ∧
      itemAt r ⟨159, .array⟩ 0 = .ok (⟨200, .null⟩, none) ∧
      itemAt r ⟨159, .array⟩ 1 = .ok (⟨201, .true⟩, none) ∧
      itemAt r ⟨159, .array⟩ 2 = .no ∧
      itemAt r ⟨159, .array⟩ 3 = .ok (⟨200, .null⟩, none) ∧
      ∃ count items last, childCountAt r ⟨159, .array⟩ = .ok count ∧
        Cursor.Front (fun i => itemAt r ⟨159, .array⟩ (UInt32.ofNat i)) count.toNat items ∧
        iterNext r last = .no ∧
        ∀ n, ∃ iter', Cursor.calls (iterNext r) n iter =
            .ok ((items.take n).map some ++ List.replicate (n - items.length) none, iter') ∧
          (items.length ≤ n → iter' = last) := by
  let hash64 : Bytes → UInt64 := fun _ => 0
  let b : Buffer := ⟨scattered.file hash64, by decide +kernel⟩
  let r : Reader := ⟨b, scattered.header hash64⟩
  have hopen : openBuffer true b = .ok r := Parts.opened rfl
  have hiter : iterArray r ⟨159, .array⟩ = .ok ⟨168, 200, 4, false⟩ := by decide +kernel
  have hsums : r.header.SumsFit := by decide +kernel
  refine ⟨b, r, _, scattered_sound.verified rfl, hopen, hiter, ?_, ?_, ?_, ?_,
    iteration_by_index hopen hsums (.inr hiter)⟩
  all_goals decide +kernel

end Hrbl
