import Hrbl.Iteration

/-!
# Runs of a reader

Any calls on one reader, in any order, on any values and on the iterators that the reader has
returned. The file has been opened and no more: its header may say what the layout check lets
through. `Header.Confined` is when no run reads outside of the file.
-/

namespace Hrbl

open Lib Lib.Outcome

/-! ## Calls -/

/-- A call of a client, one of `bc_hrbl_reader.h` or one of the two lookups in the root index that
the exporters make. A value is any; an iterator is one of those that the client holds. -/
inductive ReaderCall where
  | find (path : Bytes)
  | findRoot (key : Bytes)
  | rootAt (index : UInt64)
  | getBool (value : ValueRef)
  | getInt64 (value : ValueRef)
  | getUint64 (value : ValueRef)
  | getFloat64 (value : ValueRef)
  | getString (value : ValueRef)
  | iterBlock (block : ValueRef)
  | iterArray (array : ValueRef)
  | iterNext (held : Nat)

/-- The length of a path or a key is a `size_t`. -/
def ReaderCall.Sized : ReaderCall → Prop
  | .find path => path.length < 2 ^ 64
  | .findRoot key => key.length < 2 ^ 64
  | _ => True

/-- A call on a reader, with the iterators that the client holds before and after it. -/
def Reader.serve (hash64 : Bytes → UInt64) (r : Reader) (held : List Iter) :
    ReaderCall → Outcome (List Iter)
  | .find path => do
    let _ ← Hrbl.find hash64 r path
    return held
  | .findRoot key => do
    let _ ← findRootOffset hash64 r key
    return held
  | .rootAt index => do
    let _ ← rootAtOffset r index
    return held
  | .getBool value => do
    let _ ← Hrbl.getBool r value
    return held
  | .getInt64 value => do
    let _ ← Hrbl.getInt64 r value
    return held
  | .getUint64 value => do
    let _ ← Hrbl.getUint64 r value
    return held
  | .getFloat64 value => do
    let _ ← Hrbl.getFloat64 r value
    return held
  | .getString value => do
    let _ ← Hrbl.getString r value
    return held
  | .iterBlock block => do
    let iter ← Hrbl.iterBlock r block
    return held ++ [iter]
  | .iterArray array => do
    let iter ← Hrbl.iterArray r array
    return held ++ [iter]
  | .iterNext i =>
    match held[i]? with
    | none => .no
    | some iter => do
      let (iter', _, _) ← Hrbl.iterNext r iter
      return held.set i iter'

/-- Calls one after the other; one that returns `false` leaves the client with what it has. -/
def Reader.serves (hash64 : Bytes → UInt64) (r : Reader) :
    List Iter → List ReaderCall → Outcome (List Iter)
  | held, [] => .ok held
  | held, call :: calls =>
    match r.serve hash64 held call with
    | .ok held' => r.serves hash64 held' calls
    | .no => r.serves hash64 held calls
    | .fault => .fault

/-- The nodes section as the sums of the header have it ends inside of the file, or is empty,
and the root index ends without a wrap. -/
def Header.Confined (header : Header) (size : UInt64) : Prop :=
  (header.stringsOffset ≤ size ∨ header.stringsOffset ≤ header.nodesOffset) ∧
    128 + 24 * header.rootCount.toNat < 2 ^ 64

instance (header : Header) (size : UInt64) : Decidable (header.Confined size) :=
  inferInstanceAs (Decidable (_ ∧ _))

/-! ## Accessors -/

section

variable {r : Reader}

/-- A nodes section that ends inside, or is empty, has a kind for no place outside. -/
theorem kindAt_confined (hlayout : r.header.LayoutAccepted r.size)
    (h : r.header.stringsOffset ≤ r.size ∨ r.header.stringsOffset ≤ r.header.nodesOffset)
    (offset : UInt64) : Safe (kindAt r offset) := by
  unfold kindAt
  split
  · exact safe_no
  · rename_i hin
    rw [not_or, UInt64.not_lt, ge_iff_le, UInt64.not_le, ← hlayout.stringsOffset] at hin
    have hinside : offset < r.size := by
      rcases h with h | h
      · exact UInt64.lt_of_lt_of_le hin.2 h
      · exact absurd (UInt64.lt_of_le_of_lt hin.1 (UInt64.lt_of_lt_of_le hin.2 h))
          (UInt64.lt_irrefl _)
    rw [UInt64.lt_iff_toNat_lt, Buffer.toNat_size] at hinside
    refine Safe.bind (loadByte_safe.mpr hinside) ?_
    intro byte _
    split
    · exact safe_ok _
    · exact safe_no

theorem loadU64_safe {b : Buffer} {offset : UInt64} (h : offset.toNat + 8 ≤ b.bytes.length) :
    Safe (loadU64 b offset) := by
  rw [loadU64]
  exact Safe.bind (load_safe.mpr h) fun _ _ => safe_ok _

/-- A place that is checked against the size, where the sum does not wrap. -/
theorem le_length_of_not_gt {offset width : UInt64} (hwidth : width.toNat ≤ 24)
    (hsmall : offset.toNat < 2 ^ 64 - 24) (h : ¬offset + width > r.size) :
    offset.toNat + width.toNat ≤ r.base.bytes.length := by
  rw [gt_iff_lt, UInt64.not_lt, UInt64.le_iff_toNat_le, UInt64.toNat_add, Buffer.toNat_size] at h
  omega

/-- The place behind a kind byte, aligned, does not wrap. -/
theorem toNat_next {offset : UInt64} (h : offset.toNat < 2 ^ 63) {align : Nat}
    (hpos : 0 < align) (hle : align ≤ 8) :
    alignUpNat (offset.toNat + 1) align < 2 ^ 63 + 9 ∧ (offset + 1).toNat = offset.toNat + 1 := by
  have hone : (1 : UInt64).toNat = 1 := rfl
  have hlt := alignUpNat_lt hpos (offset.toNat + 1)
  constructor
  · omega
  · rw [UInt64.toNat_add, hone]
    omega

theorem toNat_body_start {offset : UInt64} (h : offset.toNat < 2 ^ 63) :
    (alignUp (offset + 1) 8).toNat = alignUpNat (offset.toNat + 1) 8 := by
  obtain ⟨-, hnext⟩ := toNat_next h (show 0 < 8 by omega) (Nat.le_refl 8)
  rw [toNat_alignUp_eight (by omega), hnext]

/-- What is common to the headers of blocks and arrays: behind the kind byte, and checked. -/
theorem body_inside {offset : UInt64} (hoffset : ¬offset ≥ r.size)
    (hend : ¬alignUp (offset + 1) 8 + 8 > r.size) :
    offset.toNat < r.base.bytes.length ∧
      (alignUp (offset + 1) 8).toNat + 8 ≤ r.base.bytes.length := by
  rw [ge_iff_le, UInt64.not_le, UInt64.lt_iff_toNat_lt, Buffer.toNat_size] at hoffset
  have hlength := r.base.length_lt
  have hstart := toNat_body_start (show offset.toNat < 2 ^ 63 by omega)
  obtain ⟨hsmall, -⟩ := toNat_next (show offset.toNat < 2 ^ 63 by omega)
    (show 0 < 8 by omega) (Nat.le_refl 8)
  have height : (8 : UInt64).toNat = 8 := rfl
  have hle := le_length_of_not_gt (by rw [height]; omega) (by omega) hend
  exact ⟨hoffset, hle⟩

theorem blockBodyOffsets_safe (offset : UInt64) : Safe (blockBodyOffsets r offset) := by
  unfold blockBodyOffsets
  split
  · exact safe_no
  rename_i hoffset
  refine Safe.bind (loadByte_safe.mpr ?_) ?_
  · rwa [ge_iff_le, UInt64.not_le, UInt64.lt_iff_toNat_lt, Buffer.toNat_size] at hoffset
  intro byte _
  split
  · exact safe_no
  dsimp only
  split
  · exact safe_no
  rename_i hend
  refine Safe.bind ?_ ?_
  · rw [loadBlockHeader]
    exact Safe.bind (load_safe.mpr (body_inside hoffset hend).2) fun _ _ => safe_ok _
  · intro header _
    split
    · exact safe_no
    · exact safe_ok _

theorem arrayBodyOffsets_safe (offset : UInt64) : Safe (arrayBodyOffsets r offset) := by
  unfold arrayBodyOffsets
  split
  · exact safe_no
  rename_i hoffset
  refine Safe.bind (loadByte_safe.mpr ?_) ?_
  · rwa [ge_iff_le, UInt64.not_le, UInt64.lt_iff_toNat_lt, Buffer.toNat_size] at hoffset
  intro byte _
  split
  · exact safe_no
  dsimp only
  split
  · exact safe_no
  rename_i hend
  refine Safe.bind ?_ ?_
  · rw [loadArrayHeader]
    exact Safe.bind (load_safe.mpr (body_inside hoffset hend).2) fun _ _ => safe_ok _
  · intro header _
    split
    · exact safe_no
    · exact safe_ok _

/-- A place in a table that ends inside of the file. -/
theorem toNat_table {start width index : UInt64} {count : Nat}
    (hinside : start.toNat + count * width.toNat ≤ r.base.bytes.length)
    (hindex : index.toNat < count) :
    (start + index * width).toNat = start.toNat + index.toNat * width.toNat ∧
      start.toNat + index.toNat * width.toNat + width.toNat ≤ r.base.bytes.length := by
  have hlength := r.base.length_lt
  have hmul : (index.toNat + 1) * width.toNat ≤ count * width.toNat :=
    Nat.mul_le_mul_right _ hindex
  rw [Nat.succ_mul] at hmul
  have hproduct : (index * width).toNat = index.toNat * width.toNat := by
    rw [UInt64.toNat_mul]
    exact Nat.mod_eq_of_lt (by omega)
  rw [UInt64.toNat_add, hproduct]
  constructor
  · exact Nat.mod_eq_of_lt (by omega)
  · omega

theorem blockTable_safe {offset start : UInt64} {header : BlockHeader}
    (h : blockBodyOffsets r offset = .ok (header, start)) :
    TableSafe r start header.childCount.toUInt64 := by
  intro i hi
  have hinside : start.toNat + header.childCount.toNat * rootEntrySize.toNat ≤ _ :=
    blockBodyOffsets_inside h
  have hlength := r.base.length_lt
  rw [UInt64.lt_iff_toNat_lt, UInt32.toNat_toUInt64] at hi
  obtain ⟨hplace, hend⟩ := toNat_table hinside hi
  refine readEntry_safe ?_
  rw [hplace]
  omega

theorem blockFindOffset_safe (hash64 : Bytes → UInt64) (offset : UInt64) {key : Bytes}
    (hkey : key.length < 2 ^ 64) : Safe (blockFindOffset hash64 r offset key) := by
  refine Safe.bind (blockBodyOffsets_safe offset) ?_
  rintro ⟨header, start⟩ hbody
  refine Safe.bind (binarySearchEntries_safe (blockTable_safe hbody) hkey) ?_
  intro entry _
  exact safe_ok _

theorem arrayAtOffset_safe (offset : UInt64) (index : UInt32) :
    Safe (arrayAtOffset r offset index) := by
  refine Safe.bind (arrayBodyOffsets_safe offset) ?_
  rintro ⟨header, start⟩ hbody
  have hinside : start.toNat + header.elementCount.toNat * arrayElementSize.toNat ≤ _ :=
    arrayBodyOffsets_inside hbody
  dsimp only
  split
  · exact safe_no
  · rename_i hindex
    rw [ge_iff_le, UInt32.not_le, UInt32.lt_iff_toNat_lt, ← UInt32.toNat_toUInt64] at hindex
    obtain ⟨hplace, hend⟩ := toNat_table hinside hindex
    refine loadU64_safe ?_
    rw [hplace]
    exact hend

/-! ## The root index -/

section

variable (hlayout : r.header.LayoutAccepted r.size)
  (hcount : 128 + 24 * r.header.rootCount.toNat < 2 ^ 64)

include hlayout hcount

/-- The root index of a header without wraps can be searched, also where it ends outside. -/
theorem rootTable_safe : TableSafe r r.header.rootIndexOffset r.header.rootCount := by
  intro i hi
  rw [UInt64.lt_iff_toNat_lt] at hi
  refine readEntry_safe ?_
  rw [rootEntry_place hlayout.rootIndexOffset (by omega)]
  omega

theorem rootAtOffset_safe (index : UInt64) : Safe (rootAtOffset r index) := by
  unfold rootAtOffset
  split
  · exact safe_no
  · rename_i hindex
    refine Safe.bind (rootTable_safe hlayout hcount index (UInt64.not_le.mp hindex)) ?_
    intro entry _
    refine Safe.bind (entryKeyRange_safe r entry) ?_
    intro range _
    exact safe_ok _

theorem findRootOffset_safe (hash64 : Bytes → UInt64) {key : Bytes} (hkey : key.length < 2 ^ 64) :
    Safe (findRootOffset hash64 r key) := by
  refine Safe.bind (binarySearchEntries_safe (rootTable_safe hlayout hcount) hkey) ?_
  intro entry _
  exact safe_ok _

end

/-! ## Scalars -/

theorem scalarBody_safe {offset : UInt64} (hkind : Safe (kindAt r offset)) (kind : Kind) :
    Safe (scalarBody r offset kind) := by
  refine Safe.bind hkind ?_
  intro found _
  split
  · exact safe_no
  · dsimp only
    split
    · exact safe_no
    · exact safe_ok _

/-- A kind is only found inside of the file. -/
theorem lt_length_of_kindAt {offset : UInt64} {kind : Kind} (h : kindAt r offset = .ok kind) :
    offset.toNat < r.base.bytes.length := by
  obtain ⟨-, byte, hbyte, -⟩ := kindAt_eq_ok.mp h
  refine loadByte_safe.mp ?_
  rw [hbyte]
  exact safe_ok _

/-- The body of a scalar that the reader has checked is in the file. -/
theorem scalarBody_inside {offset body : UInt64} {kind : Kind} (hsize : kind.bodySize = 8)
    (h : scalarBody r offset kind = .ok body) : body.toNat + 8 ≤ r.base.bytes.length := by
  obtain ⟨found, hfound, h⟩ := bind_eq_ok.mp h
  split at h
  · cases h
  dsimp only at h
  split at h
  · cases h
  rename_i hend
  cases h
  have hoffset := lt_length_of_kindAt hfound
  have hlength := r.base.length_lt
  rw [hsize] at hend
  -- a body of eight bytes is aligned to eight bytes, or to four for a string
  obtain ⟨k, hk, halign⟩ : ∃ k, k ≤ 3 ∧ (UInt64.ofNat kind.bodyAlign).toNat = 2 ^ k := by
    cases kind with
    | string => exact ⟨2, by omega, rfl⟩
    | int64 => exact ⟨3, by omega, rfl⟩
    | uint64 => exact ⟨3, by omega, rfl⟩
    | float64 => exact ⟨3, by omega, rfl⟩
    | null => cases hsize
    | «false» => cases hsize
    | «true» => cases hsize
    | block => cases hsize
    | array => cases hsize
  have hpow : 2 ^ k ≤ 8 := Nat.pow_le_pow_right (show 0 < 2 by omega) hk
  obtain ⟨hsmall, hnext⟩ := toNat_next (show offset.toNat < 2 ^ 63 by omega)
    (Nat.two_pow_pos k) hpow
  have hplace : (alignUp (offset + 1) (UInt64.ofNat kind.bodyAlign)).toNat =
      alignUpNat (offset.toNat + 1) (2 ^ k) := by
    rw [toNat_alignUp (by omega) halign (by omega), hnext]
  have height : (UInt64.ofNat 8).toNat = 8 := rfl
  exact le_length_of_not_gt (by rw [height]; omega) (by omega) hend

section

variable {offset : UInt64} (hkind : Safe (kindAt r offset))

include hkind

/-- The body of a scalar may be loaded. -/
theorem scalarBody_bind_safe {α : Type} (kind : Kind) (hsize : kind.bodySize = 8)
    {f : UInt64 → Outcome α}
    (hf : ∀ body : UInt64, body.toNat + 8 ≤ r.base.bytes.length → Safe (f body)) :
    Safe (scalarBody r offset kind >>= f) := by
  refine Safe.bind (scalarBody_safe hkind kind) ?_
  intro body hbody
  exact hf body (scalarBody_inside hsize hbody)

theorem scalarInt64At_safe : Safe (scalarInt64At r offset) := by
  refine scalarBody_bind_safe hkind .int64 rfl ?_
  intro body hbody
  exact Safe.bind (loadU64_safe hbody) fun _ _ => safe_ok _

theorem scalarUint64At_safe : Safe (scalarUint64At r offset) :=
  scalarBody_bind_safe hkind .uint64 rfl fun _ => loadU64_safe

theorem scalarFloat64At_safe : Safe (scalarFloat64At r offset) :=
  scalarBody_bind_safe hkind .float64 rfl fun _ => loadU64_safe

theorem scalarStringAt_safe : Safe (scalarStringAt r offset) := by
  refine scalarBody_bind_safe hkind .string rfl ?_
  intro body hbody
  refine Safe.bind ?_ ?_
  · rw [loadStringRef]
    exact Safe.bind (load_safe.mpr hbody) fun _ _ => safe_ok _
  · intro ref _
    dsimp only
    split
    · exact safe_no
    · exact safe_ok _

theorem scalarBoolAt_safe : Safe (scalarBoolAt r offset) := by
  refine Safe.bind hkind ?_
  intro kind _
  cases kind with
  | «true» => exact safe_ok _
  | «false» => exact safe_ok _
  | _ => exact safe_no

end

/-! ## Paths -/

/-- A segment of a path is not longer than the path. -/
theorem length_segment_le {c : UInt8} {tail segment after : Bytes}
    (h : cutSegment (c :: tail) = some (.key segment, after)) :
    segment.length ≤ (c :: tail).length := by
  simp only [cutSegment] at h
  split at h
  · split at h
    · cases h
    · split at h
      · cases h
      · cases h
  · split at h
    · split at h
      · cases h
      · cases h
        exact (List.takeWhile_sublist _).length_le.trans (Nat.le_succ _)
    · cases h
      exact (List.takeWhile_sublist _).length_le

section

variable (hlayout : r.header.LayoutAccepted r.size)
  (hcount : 128 + 24 * r.header.rootCount.toNat < 2 ^ 64)

include hlayout hcount

/-- A step of the path loop asks a call that is safe. -/
theorem stepOffset_safe (hash64 : Bytes → UInt64) (offset : UInt64) (resolved : Bool) {step : Step}
    (hstep : ∀ key, step = .key key → key.length < 2 ^ 64) :
    Safe (stepOffset hash64 r offset resolved step) := by
  cases resolved with
  | true =>
    cases step with
    | index index => exact arrayAtOffset_safe offset index
    | key key => exact blockFindOffset_safe hash64 offset (hstep key rfl)
  | false =>
    cases step with
    | index index => exact safe_no
    | key key => exact findRootOffset_safe hlayout hcount hash64 (hstep key rfl)

theorem resolveLoop_safe (hash64 : Bytes → UInt64) (path : Bytes) (offset : UInt64)
    (resolved : Bool) (hpath : path.length < 2 ^ 64) :
    Safe (resolveLoop hash64 r offset resolved path) := by
  -- on what is left of the path; a turn takes at least one byte of it
  induction hn : path.length using Nat.strong_induction_on generalizing path offset resolved with
  | _ n ih =>
    cases path with
    | nil =>
      rw [resolveLoop]
      split
      · exact safe_ok _
      · exact safe_no
    | cons c tail =>
      rw [List.length_cons] at hpath hn
      by_cases hdot : c = 0x2E
      · rw [resolveLoop, dif_pos hdot]
        exact ih tail.length (by omega) tail offset resolved (by omega) rfl
      have hnext : ∀ {step : Step} {after : Bytes}, after.length < (c :: tail).length →
          (∀ key, step = .key key → key.length < 2 ^ 64) →
          Safe (stepOffset hash64 r offset resolved step >>= fun next =>
            resolveLoop hash64 r next true after) := by
        intro step after hshorter hstep
        rw [List.length_cons] at hshorter
        refine Safe.bind (stepOffset_safe hlayout hcount hash64 offset resolved hstep) ?_
        intro next _
        exact ih after.length (by omega) after next true (by omega) rfl
      cases hcut : cutSegment (c :: tail) with
      | none =>
        rw [resolveLoop_cut_none hdot offset resolved hcut]
        exact safe_no
      | some cut =>
        obtain ⟨segment, after⟩ := cut
        have hshorter := length_cutSegment_lt hdot hcut
        cases segment with
        | index index =>
          rw [resolveLoop_cut_index hdot offset resolved hcut]
          exact hnext hshorter fun key hkey => by cases hkey
        | key segment =>
          rw [resolveLoop_cut_key hdot offset resolved hcut]
          split
          · exact safe_no
          · refine hnext hshorter ?_
            intro key hkey
            cases hkey
            have hle := length_segment_le hcut
            rw [List.length_cons] at hle
            omega

theorem resolvePath_safe (hash64 : Bytes → UInt64) {path : Bytes} (hpath : path.length < 2 ^ 64) :
    Safe (resolvePath hash64 r path) := by
  unfold resolvePath
  split
  · exact safe_no
  · exact resolveLoop_safe hlayout hcount hash64 path 0 false hpath

/-- A path may be looked up if the kind of what it leads to may be asked for. -/
theorem find_safe (hash64 : Bytes → UInt64) {path : Bytes} (hpath : path.length < 2 ^ 64)
    (hkind : ∀ offset, resolvePath hash64 r path = .ok offset → Safe (kindAt r offset)) :
    Safe (find hash64 r path) := by
  refine Safe.bind (resolvePath_safe hlayout hcount hash64 hpath) ?_
  intro offset hoffset
  refine Safe.bind (hkind offset hoffset) ?_
  intro kind _
  exact safe_ok _

end

/-! ## Iterators -/

/-- What is left of an iterator is in the file. -/
def Iter.Inside (r : Reader) (iter : Iter) : Prop :=
  iter.cursorOffset.toNat + iter.remaining.toNat * (if iter.isBlock then 24 else 8) ≤
    r.base.bytes.length

theorem iterBlock_safe (block : ValueRef) : Safe (iterBlock r block) := by
  unfold iterBlock
  split
  · exact safe_no
  · exact Safe.bind (blockBodyOffsets_safe _) fun _ _ => safe_ok _

theorem iterArray_safe (array : ValueRef) : Safe (iterArray r array) := by
  unfold iterArray
  split
  · exact safe_no
  · exact Safe.bind (arrayBodyOffsets_safe _) fun _ _ => safe_ok _

theorem iterBlock_inside {block : ValueRef} {iter : Iter} (h : iterBlock r block = .ok iter) :
    iter.Inside r := by
  unfold iterBlock at h
  split at h
  · cases h
  · obtain ⟨⟨header, start⟩, hbody, h⟩ := bind_eq_ok.mp h
    cases h
    exact blockBodyOffsets_inside hbody

theorem iterArray_inside {array : ValueRef} {iter : Iter} (h : iterArray r array = .ok iter) :
    iter.Inside r := by
  unfold iterArray at h
  split at h
  · cases h
  · obtain ⟨⟨header, start⟩, hbody, h⟩ := bind_eq_ok.mp h
    cases h
    exact arrayBodyOffsets_inside hbody

theorem toNat_remaining {remaining : UInt32} (h : remaining ≠ 0) :
    0 < remaining.toNat ∧ (remaining - 1).toNat = remaining.toNat - 1 := by
  have hpos : 0 < remaining.toNat := by
    by_contra hnone
    exact h (UInt32.toNat_inj.mp (show remaining.toNat = 0 by omega))
  exact ⟨hpos, UInt32.toNat_sub_of_le _ _ (UInt32.le_iff_toNat_le.mpr hpos)⟩

/-- An item further on. -/
theorem toNat_advance {cursor width : UInt64} {remaining : UInt32} (hremaining : remaining ≠ 0)
    (hinside : cursor.toNat + remaining.toNat * width.toNat ≤ r.base.bytes.length) :
    (cursor + width).toNat + (remaining - 1).toNat * width.toNat ≤ r.base.bytes.length ∧
      cursor.toNat + width.toNat ≤ r.base.bytes.length := by
  have hlength := r.base.length_lt
  obtain ⟨hpos, hless⟩ := toNat_remaining hremaining
  obtain ⟨n, hn⟩ : ∃ n, remaining.toNat = n + 1 := ⟨remaining.toNat - 1, by omega⟩
  rw [hn, Nat.succ_mul] at hinside
  rw [hless, hn, Nat.add_sub_cancel, UInt64.toNat_add, Nat.mod_eq_of_lt (by omega)]
  constructor
  · omega
  · omega

/-- The offset that is stored in the item an iterator is on. -/
def Iter.On (r : Reader) (iter : Iter) (offset : UInt64) : Prop :=
  if iter.isBlock then
    ∃ entry, readEntry r iter.cursorOffset = .ok entry ∧ entry.valueOffset = offset
  else loadU64 r.base iter.cursorOffset = .ok offset

/-- The next item of an iterator inside is read inside, and the iterator stays there. -/
theorem iterNext_inside {iter : Iter} (hiter : iter.Inside r)
    (hkind : ∀ offset, iter.remaining ≠ 0 → iter.On r offset → Safe (kindAt r offset)) :
    Safe (iterNext r iter) ∧
      ∀ iter' value key, iterNext r iter = .ok (iter', value, key) → iter'.Inside r := by
  have hlength := r.base.length_lt
  unfold Iter.Inside at hiter
  unfold iterNext
  split
  · exact ⟨safe_no, fun _ _ _ hnext => by cases hnext⟩
  rename_i hremaining
  split
  · -- an entry of a block
    rename_i hblock
    rw [if_pos hblock] at hiter
    have hinside : iter.cursorOffset.toNat + iter.remaining.toNat * blockEntrySize.toNat ≤
        r.base.bytes.length := hiter
    obtain ⟨hnext, hhere⟩ := toNat_advance hremaining hinside
    constructor
    · refine Safe.bind (readEntry_safe (by omega)) ?_
      intro entry hentry
      refine Safe.bind (entryKeyRange_safe r entry) ?_
      intro range _
      refine Safe.bind (hkind _ hremaining ?_) ?_
      · rw [Iter.On, if_pos hblock]
        exact ⟨entry, hentry, rfl⟩
      · intro kind _
        exact safe_ok _
    · intro iter' value key hok
      obtain ⟨entry, -, hok⟩ := bind_eq_ok.mp hok
      obtain ⟨range, -, hok⟩ := bind_eq_ok.mp hok
      obtain ⟨kind, -, hok⟩ := bind_eq_ok.mp hok
      cases hok
      unfold Iter.Inside
      dsimp only
      rw [if_pos hblock]
      exact hnext
  · -- an element of an array
    rename_i harray
    rw [if_neg harray] at hiter
    have hinside : iter.cursorOffset.toNat + iter.remaining.toNat * arrayElementSize.toNat ≤
        r.base.bytes.length := hiter
    obtain ⟨hnext, hhere⟩ := toNat_advance hremaining hinside
    split
    · exact ⟨safe_no, fun _ _ _ hok => by cases hok⟩
    constructor
    · refine Safe.bind (loadU64_safe hhere) ?_
      intro offset hoffset
      refine Safe.bind (hkind offset hremaining ?_) ?_
      · rw [Iter.On, if_neg harray]
        exact hoffset
      · intro kind _
        exact safe_ok _
    · intro iter' value key hok
      obtain ⟨offset, -, hok⟩ := bind_eq_ok.mp hok
      obtain ⟨kind, -, hok⟩ := bind_eq_ok.mp hok
      cases hok
      unfold Iter.Inside
      dsimp only
      rw [if_neg harray]
      exact hnext

end

/-! ## Runs -/

section

variable {r : Reader} (hash64 : Bytes → UInt64)

/-- A call on a confined file faults on no iterators that are inside, and leaves such ones. -/
theorem serve_inside (hlayout : r.header.LayoutAccepted r.size) (h : r.header.Confined r.size)
    {held : List Iter} (hheld : ∀ iter ∈ held, iter.Inside r) {call : ReaderCall}
    (hcall : call.Sized) : Safe (r.serve hash64 held call) ∧
      ∀ held', r.serve hash64 held call = .ok held' → ∀ iter ∈ held', iter.Inside r := by
  -- a call that answers a value leaves the iterators
  have hanswer : ∀ {α : Type} {x : Outcome α}, Safe x →
      Safe (x >>= fun _ => Outcome.ok held) ∧
        ∀ held', (x >>= fun _ => Outcome.ok held) = .ok held' → ∀ iter ∈ held', iter.Inside r := by
    intro α x hx
    refine ⟨Safe.bind hx fun _ _ => safe_ok _, ?_⟩
    intro held' hok
    obtain ⟨_, -, hok⟩ := bind_eq_ok.mp hok
    cases hok
    exact hheld
  -- a call that opens one adds it
  have hopened : ∀ {x : Outcome Iter}, Safe x → (∀ iter, x = .ok iter → iter.Inside r) →
      Safe (x >>= fun iter => Outcome.ok (held ++ [iter])) ∧
        ∀ held', (x >>= fun iter => Outcome.ok (held ++ [iter])) = .ok held' →
          ∀ iter ∈ held', iter.Inside r := by
    intro x hx hinside
    refine ⟨Safe.bind hx fun _ _ => safe_ok _, ?_⟩
    intro held' hok iter hiter
    obtain ⟨opened, hopen, hok⟩ := bind_eq_ok.mp hok
    cases hok
    rcases List.mem_append.mp hiter with hold | hnew
    · exact hheld iter hold
    · rw [List.mem_singleton.mp hnew]
      exact hinside opened hopen
  have hkind := kindAt_confined hlayout h.1
  cases call with
  | find path => exact hanswer (find_safe hlayout h.2 hash64 hcall fun offset _ => hkind offset)
  | findRoot key => exact hanswer (findRootOffset_safe hlayout h.2 hash64 hcall)
  | rootAt index => exact hanswer (rootAtOffset_safe hlayout h.2 index)
  | getBool value => exact hanswer (scalarBoolAt_safe (hkind value.nodeOffset))
  | getInt64 value => exact hanswer (scalarInt64At_safe (hkind value.nodeOffset))
  | getUint64 value => exact hanswer (scalarUint64At_safe (hkind value.nodeOffset))
  | getFloat64 value => exact hanswer (scalarFloat64At_safe (hkind value.nodeOffset))
  | getString value => exact hanswer (scalarStringAt_safe (hkind value.nodeOffset))
  | iterBlock block =>
    exact hopened (iterBlock_safe block) fun iter hiter => iterBlock_inside hiter
  | iterArray array =>
    exact hopened (iterArray_safe array) fun iter hiter => iterArray_inside hiter
  | iterNext i =>
    rw [Reader.serve]
    cases hiter : held[i]? with
    | none => exact ⟨safe_no, fun _ hok => by cases hok⟩
    | some iter =>
      obtain ⟨hsafe, hnext⟩ :=
        iterNext_inside (hheld iter (List.mem_of_getElem? hiter)) fun offset _ _ => hkind offset
      refine ⟨Safe.bind hsafe fun _ _ => safe_ok _, ?_⟩
      intro held' hok other hother
      obtain ⟨⟨iter', value, key⟩, hok', hok⟩ := bind_eq_ok.mp hok
      cases hok
      rcases List.mem_or_eq_of_mem_set hother with hold | hnew
      · exact hheld other hold
      · rw [hnew]
        exact hnext iter' value key hok'

/-- The run of a client is a run of its calls. -/
theorem serves_eq_relay (held : List Iter) (calls : List ReaderCall) :
    r.serves hash64 held calls = relay (r.serve hash64) held calls := by
  induction calls generalizing held with
  | nil => rfl
  | cons call calls ih =>
    unfold Reader.serves relay
    cases r.serve hash64 held call with
    | ok held' => exact ih held'
    | no => exact ih held
    | fault => rfl

/-- No run on a confined file faults. The iterators that are held stay inside. -/
theorem serves_safe (hlayout : r.header.LayoutAccepted r.size) (h : r.header.Confined r.size)
    {calls : List ReaderCall} (hcalls : ∀ call ∈ calls, call.Sized) {held : List Iter}
    (hheld : ∀ iter ∈ held, iter.Inside r) : Safe (r.serves hash64 held calls) := by
  rw [serves_eq_relay]
  refine relay_safe (fun held => ∀ iter ∈ held, iter.Inside r) ?_ hcalls hheld
  intro held call hheld hcall
  exact serve_inside hash64 hlayout h hheld hcall

/-- A place from the last 24 on is below the size with its sum. -/
theorem readEntry_fault {offset : UInt64} (hsize : 24 ≤ r.size.toNat)
    (h : 2 ^ 64 - 24 ≤ offset.toNat) : readEntry r offset = .fault := by
  have hlt := offset.toNat_lt
  have hlength := r.base.length_lt
  have hwidth : rootEntrySize.toNat = 24 := rfl
  unfold readEntry
  rw [if_neg]
  · rw [loadEntry]
    cases hload : load r.base offset 24 with
    | fault => rfl
    | ok bytes =>
      have hsafe : Safe (load r.base offset 24) := by
        rw [hload]
        exact safe_ok _
      have hle := load_safe.mp hsafe
      omega
    | no => exact absurd hload load_ne_no
  · rw [gt_iff_lt, UInt64.not_lt, UInt64.le_iff_toNat_le, UInt64.toNat_add, hwidth]
    omega

/-- The last entry that may start in the address space cannot be read: its end wraps. -/
theorem rootAt_fault (hlayout : r.header.LayoutAccepted r.size) (hsize : 160 ≤ r.size.toNat)
    (h : 2 ^ 64 ≤ 128 + 24 * r.header.rootCount.toNat) :
    rootAtOffset r 768614336404564645 = .fault := by
  have hindex : (768614336404564645 : UInt64).toNat = 768614336404564645 := rfl
  unfold rootAtOffset
  rw [if_neg]
  · rw [readEntry_fault (by omega)]
    · rfl
    · rw [rootEntry_place hlayout.rootIndexOffset (by rw [hindex]; omega), hindex]
      omega
  · rw [ge_iff_le, UInt64.not_le, UInt64.lt_iff_toNat_lt, hindex]
    omega

/-- A section of nodes that leaves the file has a place outside of it. -/
theorem kindAt_fault (hlayout : r.header.LayoutAccepted r.size)
    (hsize : r.size < r.header.stringsOffset)
    (hnodes : r.header.nodesOffset < r.header.stringsOffset) :
    ∃ offset, kindAt r offset = .fault := by
  -- the later one of the two
  obtain ⟨offset, hle, hstart, hend⟩ : ∃ offset, r.size ≤ offset ∧
      r.header.nodesOffset ≤ offset ∧ offset < r.header.stringsOffset := by
    rcases UInt64.le_total r.size r.header.nodesOffset with hle | hle
    · exact ⟨r.header.nodesOffset, hle, UInt64.le_refl _, hnodes⟩
    · exact ⟨r.size, UInt64.le_refl _, hle, hsize⟩
  refine ⟨offset, ?_⟩
  unfold kindAt
  rw [if_neg]
  · cases hload : loadByte r.base offset with
    | fault => rfl
    | ok byte =>
      have hin := loadByte_safe.mp (by rw [hload]; exact safe_ok _)
      rw [UInt64.le_iff_toNat_le, Buffer.toNat_size] at hle
      omega
    | no => exact absurd hload loadByte_ne_no
  · rw [not_or, UInt64.not_lt, ge_iff_le, UInt64.not_le, ← hlayout.stringsOffset]
    exact ⟨hstart, hend⟩

/-- A call by itself. -/
theorem serves_single {call : ReaderCall} (hsafe : Safe (r.serves hash64 [] [call])) :
    Safe (r.serve hash64 [] call) := by
  rw [serves_eq_relay] at hsafe
  exact safe_of_relay_single hsafe

/-- A reader that has opened a file can be asked anything in any order without leaving the file,
exactly when the nodes section as the header sums it up ends inside of the file, or is empty, and
the root index ends without a wrap. -/
theorem reader_runs_safe_iff {b : Buffer} (hopen : openBuffer true b = .ok r) :
    (∀ calls : List ReaderCall, (∀ call ∈ calls, call.Sized) →
      Safe (r.serves hash64 [] calls)) ↔ r.header.Confined r.size := by
  obtain ⟨rfl, henvelope⟩ := openBuffer_eq_ok.mp hopen
  have hlayout : r.header.LayoutAccepted r.size := henvelope.layout
  have hsize : 160 ≤ r.size.toNat := by
    rw [Buffer.toNat_size]
    exact henvelope.size_le
  constructor
  · intro hsafe
    -- a place outside, and an index behind the last that may be read, can be asked for at once
    constructor
    · by_contra hout
      rw [not_or, UInt64.not_le, UInt64.not_le] at hout
      obtain ⟨offset, hfault⟩ := kindAt_fault hlayout hout.1 hout.2
      have hcall := serves_single hash64 (hsafe [.getBool ⟨offset, .true⟩] (by simp [ReaderCall.Sized]))
      rw [Reader.serve, getBool, scalarBoolAt, hfault] at hcall
      exact not_safe_fault hcall
    · by_contra hcount
      have hcall := serves_single hash64
        (hsafe [.rootAt 768614336404564645] (by simp [ReaderCall.Sized]))
      rw [Reader.serve, rootAt_fault hlayout hsize (by omega)] at hcall
      exact not_safe_fault hcall
  · intro hconfined calls hcalls
    refine serves_safe hash64 hlayout hconfined hcalls ?_
    intro iter hiter
    cases hiter

end

/-- A file of 160 bytes that opens, and on which a run faults. -/
theorem reader_runs_safe_iff_wrapping : ∃ (b : Buffer) (r : Reader), openBuffer true b = .ok r ∧
    ¬∀ calls : List ReaderCall, (∀ call ∈ calls, call.Sized) →
      Safe (r.serves (fun _ => 0) [] calls) := by
  obtain ⟨b, hsize, hsealed⟩ := exists_wrapping_sealed wrappingHeader.checksumXxh3
  have hopen : openBuffer true b = .ok ⟨b, wrappingHeader⟩ :=
    openBuffer_eq_ok.mpr ⟨rfl, hsealed.enveloped⟩
  refine ⟨b, _, hopen, ?_⟩
  rw [reader_runs_safe_iff _ hopen]
  show ¬Header.Confined wrappingHeader b.size
  rw [hsize]
  decide

end Hrbl
