import Hrbl.PoolScan
import Hrbl.Envelope

/-!
# The root index

What the verifier's pass over the root index accepts: entries in strictly increasing order
of their hashes, whose value offsets and key ranges are in their sections.
-/

namespace Hrbl

open Lib Lib.Outcome

/-! ## Loads -/

/-- Whole words of fetched bytes. -/
theorem le32_u32At {raw : List UInt8} {i : Nat} (h : i + 4 ≤ raw.length) :
    le32 (u32At raw i) = (raw.drop i).take 4 := by
  have hlen : ((raw.drop i).take 4).length = 4 := by
    rw [List.length_take, List.length_drop]
    omega
  have hlt := leNat_lt ((raw.drop i).take 4)
  rw [hlen] at hlt
  rw [u32At, le32, UInt32.toNat_ofNat', Nat.mod_eq_of_lt (by omega)]
  have hbytes := leBytes_leNat ((raw.drop i).take 4)
  rwa [hlen] at hbytes

theorem le64_u64At {raw : List UInt8} {i : Nat} (h : i + 8 ≤ raw.length) :
    le64 (u64At raw i) = (raw.drop i).take 8 := by
  have hlen : ((raw.drop i).take 8).length = 8 := by
    rw [List.length_take, List.length_drop]
    omega
  have hlt := leNat_lt ((raw.drop i).take 8)
  rw [hlen] at hlt
  rw [u64At, le64, UInt64.toNat_ofNat', Nat.mod_eq_of_lt (by omega)]
  have hbytes := leBytes_leNat ((raw.drop i).take 8)
  rwa [hlen] at hbytes

theorem Entry.encode_decode {raw : List UInt8} (h : raw.length = 24) :
    (Entry.decode raw).encode = raw := by
  rw [Entry.encode, Entry.decode, le64_u64At (by omega), le32_u32At (by omega),
    le32_u32At (by omega), le64_u64At (by omega)]
  have hsplit : ∀ i n, (raw.drop i).take n ++ raw.drop (i + n) = raw.drop i := fun i n => by
    rw [← List.drop_drop, List.take_append_drop]
  have hlast : (raw.drop 16).take 8 = raw.drop 16 := by
    rw [List.take_of_length_le]
    rw [List.length_drop]
    omega
  rw [hlast, List.append_assoc, hsplit 12 4, List.append_assoc, hsplit 8 4, hsplit 0 8,
    List.drop_zero]

theorem loadEntry_eq_ok {b : Buffer} {offset : UInt64} {entry : Entry} :
    loadEntry b offset = .ok entry ↔ HasAt b.bytes offset.toNat entry.encode := by
  constructor
  · intro h
    obtain ⟨raw, hraw, hentry⟩ := bind_eq_ok.mp h
    obtain ⟨hat, hlen⟩ := hasAt_of_load hraw
    cases hentry
    rwa [Entry.encode_decode hlen]
  · intro h
    have hne : entry.encode ≠ [] := fun hnil => by
      have hlen := entry.length_encode
      rw [hnil] at hlen
      cases hlen
    have hle := h.le_length hne
    rw [Entry.length_encode] at hle
    rw [loadEntry, load_of_hasAt h entry.length_encode hle, ok_bind,
      Entry.decode_of_hasAt (HasAt.self _)]
    rfl

/-! ## The pass -/

/-- The value offset and the key range of an entry are in their sections, by the sums of the
verifier. -/
structure EntryInSections (header : Header) (entry : Entry) : Prop where
  value_ge : header.nodesOffset ≤ entry.valueOffset
  value_lt : entry.valueOffset < header.stringsOffset
  key_ge : header.stringsOffset ≤ entry.keyPoolOffset.toUInt64
  key_le : entry.keyPoolOffset.toUInt64 + 4 + entry.keyLength.toUInt64 ≤
    header.stringsOffset + header.stringsSize

/-- The root index of the header holds these entries. -/
structure RootsHeld (b : Buffer) (header : Header) (entries : List Entry) : Prop where
  held : HasAt b.bytes 128 (entries.flatMap Entry.encode)
  count_eq : entries.length = header.rootCount.toNat
  sorted : entries.Pairwise fun a b => a.keyHash64 < b.keyHash64
  inSections : ∀ entry ∈ entries, EntryInSections header entry

theorem verifyRootEntry_eq_ok {header : Header} {i previousHash : UInt64} {entry : Entry} :
    verifyRootEntry header i previousHash entry = .ok ↔
      (i ≠ 0 → previousHash < entry.keyHash64) ∧ EntryInSections header entry := by
  rw [verifyRootEntry, guard_eq_ok (by decide), guard_eq_ok (by decide), guard_eq_ok (by decide),
    guard_eq_ok (by decide)]
  constructor
  · rintro ⟨h₁, h₂, h₃, h₄, -⟩
    rw [not_or] at h₃ h₄
    refine ⟨fun hi => ?_, UInt64.not_lt.mp h₃.1, UInt64.not_le.mp h₃.2, UInt64.not_lt.mp h₄.1,
      UInt64.not_lt.mp h₄.2⟩
    exact UInt64.lt_of_le_of_ne (UInt64.not_lt.mp fun hlt => h₁ ⟨hi, hlt⟩)
      fun heq => h₂ ⟨hi, heq.symm⟩
  · rintro ⟨h, hsections⟩
    refine ⟨fun ⟨hi, hlt⟩ => ?_, fun ⟨hi, heq⟩ => ?_, ?_, ?_, rfl⟩
    · exact UInt64.lt_irrefl _ (UInt64.lt_trans hlt (h hi))
    · have hlt := h hi
      rw [heq] at hlt
      exact UInt64.lt_irrefl _ hlt
    · exact not_or.mpr ⟨UInt64.not_lt.mpr hsections.value_ge, UInt64.not_le.mpr hsections.value_lt⟩
    · exact not_or.mpr ⟨UInt64.not_lt.mpr hsections.key_ge, UInt64.not_lt.mpr hsections.key_le⟩

/-- Where entry `i` of the root index is. -/
theorem rootEntry_place {header : Header} {i : UInt64}
    (hoffset : header.rootIndexOffset = rootIndexStart) (hplace : 128 + i.toNat * 24 < 2 ^ 64) :
    (header.rootIndexOffset + i * rootEntrySize).toNat = 128 + i.toNat * 24 := by
  have h128 : (128 : UInt64).toNat = 128 := rfl
  have h24 : (24 : UInt64).toNat = 24 := rfl
  rw [hoffset, UInt64.toNat_add, UInt64.toNat_mul, h128, h24]
  omega

/-- The numbers of the turn after an entry that is inside. -/
theorem rootLoop_next {b : Buffer} {header : Header} {i : UInt64} {entry : Entry}
    (hi : i < header.rootCount) (hat : HasAt b.bytes (128 + i.toNat * 24) entry.encode) :
    (i + 1).toNat = i.toNat + 1 ∧ i + 1 ≤ header.rootCount ∧ i + 1 ≠ 0 ∧
      128 + (i + 1).toNat * 24 < 2 ^ 64 := by
  have hb := b.length_lt
  have hone : (1 : UInt64).toNat = 1 := rfl
  have hlen := entry.length_encode
  have hinside := hat.le_length fun hnil => by
    rw [hnil] at hlen
    cases hlen
  have hcount := header.rootCount.toNat_lt
  rw [UInt64.lt_iff_toNat_lt] at hi
  have hsucc : (i + 1).toNat = i.toNat + 1 := by
    rw [UInt64.toNat_add, hone]
    omega
  refine ⟨hsucc, UInt64.le_iff_toNat_le.mpr (by omega), fun hzero => ?_, by omega⟩
  rw [hzero] at hsucc
  cases hsucc

/-- The loop from entry `i` on. -/
theorem verifyRootLoop_eq_ok {b : Buffer} {header : Header} {i previousHash : UInt64}
    (hoffset : header.rootIndexOffset = rootIndexStart) (hi : i ≤ header.rootCount)
    (hplace : 128 + i.toNat * 24 < 2 ^ 64) :
    verifyRootLoop b header i previousHash = .ok .ok ↔
      ∃ entries : List Entry, HasAt b.bytes (128 + i.toNat * 24) (entries.flatMap Entry.encode) ∧
        i.toNat + entries.length = header.rootCount.toNat ∧
        (∀ entry ∈ entries, i ≠ 0 → previousHash < entry.keyHash64) ∧
        entries.Pairwise (fun a b => a.keyHash64 < b.keyHash64) ∧
        ∀ entry ∈ entries, EntryInSections header entry := by
  constructor
  · intro h
    fun_induction verifyRootLoop b header i previousHash with
    -- an entry that is accepted has the hash that the next one is compared with
    | case1 i previousHash hlt entry hload hentry ih =>
      rw [loadEntry_eq_ok, rootEntry_place hoffset hplace] at hload
      obtain ⟨hprevious, hsections⟩ := verifyRootEntry_eq_ok.mp hentry
      obtain ⟨hsucc, hle, hne, hplace'⟩ := rootLoop_next hlt hload
      obtain ⟨entries, hat, hcount, hgreater, hsorted, hrest⟩ := ih hle hplace' h
      refine ⟨entry :: entries, ?_, ?_, ?_, ?_, List.forall_mem_cons.mpr ⟨hsections, hrest⟩⟩
      · rw [List.flatMap_cons, hasAt_append, Entry.length_encode]
        refine ⟨hload, ?_⟩
        rwa [hsucc, Nat.succ_mul, ← Nat.add_assoc] at hat
      · rw [List.length_cons]
        omega
      · refine List.forall_mem_cons.mpr ⟨hprevious, fun e he hi => ?_⟩
        exact UInt64.lt_trans (hprevious hi) (hgreater e he hne)
      · exact List.pairwise_cons.mpr ⟨fun e he => hgreater e he hne, hsorted⟩
    | case2 _ _ _ _ _ hne =>
      rw [Outcome.ok.injEq] at h
      exact absurd h hne
    | case3 => cases h
    | case4 => cases h
    | case5 i previousHash hge =>
      refine ⟨[], HasAt.nil _ _, ?_, fun _ he => absurd he List.not_mem_nil, List.Pairwise.nil,
        fun _ he => absurd he List.not_mem_nil⟩
      exact congrArg UInt64.toNat (UInt64.le_antisymm hi (UInt64.not_lt.mp hge))
  · rintro ⟨entries, hat, hcount, hgreater, hsorted, hsections⟩
    -- by induction on the entries, one turn of the loop for each
    induction entries generalizing i previousHash with
    | nil =>
      have hend : i = header.rootCount := UInt64.toNat_inj.mp hcount
      rw [verifyRootLoop, hend, if_neg (UInt64.lt_irrefl _)]
    | cons entry entries ih =>
      rw [List.flatMap_cons, hasAt_append, Entry.length_encode] at hat
      rw [List.length_cons] at hcount
      rw [List.forall_mem_cons] at hgreater hsections
      obtain ⟨hfirst, hrest⟩ := hat
      obtain ⟨hsmaller, hsorted⟩ := List.pairwise_cons.mp hsorted
      have hlt : i < header.rootCount := by
        rw [UInt64.lt_iff_toNat_lt]
        omega
      obtain ⟨hsucc, hle, hne, hplace'⟩ := rootLoop_next hlt hfirst
      have hload : loadEntry b (header.rootIndexOffset + i * rootEntrySize) = .ok entry :=
        loadEntry_eq_ok.mpr (by rwa [rootEntry_place hoffset hplace])
      have hentry : verifyRootEntry header i previousHash entry = .ok :=
        verifyRootEntry_eq_ok.mpr ⟨hgreater.1, hsections.1⟩
      rw [verifyRootLoop, if_pos hlt, hload]
      simp only
      rw [if_pos hentry]
      refine ih hle hplace' ?_ (by omega) (fun e he _ => hsmaller e he) hsorted hsections.2
      rwa [hsucc, Nat.succ_mul, ← Nat.add_assoc]

/-- The pass accepts the root indexes that hold entries in order. -/
theorem verifyRootIndex_eq_ok {b : Buffer} {header : Header}
    (hoffset : header.rootIndexOffset = rootIndexStart) :
    verifyRootIndex b header = .ok .ok ↔ ∃ entries, RootsHeld b header entries := by
  have hzero : (0 : UInt64).toNat = 0 := rfl
  rw [verifyRootIndex, verifyRootLoop_eq_ok hoffset (UInt64.le_iff_toNat_le.mpr (Nat.zero_le _))
    (by rw [hzero]; omega), hzero]
  simp only [Nat.zero_mul, Nat.add_zero, Nat.zero_add]
  constructor
  · rintro ⟨entries, hat, hcount, -, hsorted, hsections⟩
    exact ⟨entries, hat, hcount, hsorted, hsections⟩
  · rintro ⟨entries, hheld⟩
    exact ⟨entries, hheld.held, hheld.count_eq, fun _ _ h => absurd rfl h, hheld.sorted,
      hheld.inSections⟩

/-! ## Equal hashes -/

/-- A root index in order, but for hashes that may be equal. -/
structure RootsListed (b : Buffer) (header : Header) (entries : List Entry) : Prop where
  held : HasAt b.bytes 128 (entries.flatMap Entry.encode)
  count_eq : entries.length = header.rootCount.toNat
  sorted : entries.Pairwise fun e e' => e.keyHash64 ≤ e'.keyHash64
  inSections : ∀ entry ∈ entries, EntryInSections header entry

theorem verifyRootEntry_of_equal {header : Header} {i previousHash : UInt64} {entry : Entry}
    (hi : i ≠ 0) (hequal : entry.keyHash64 = previousHash) :
    verifyRootEntry header i previousHash entry = .duplicateKey := by
  rw [verifyRootEntry, if_neg, if_pos ⟨hi, hequal⟩]
  rintro ⟨-, hlt⟩
  rw [hequal] at hlt
  exact UInt64.lt_irrefl _ hlt

/-- The loop from entry `i` on, when nothing but equal hashes can stop it. -/
theorem verifyRootLoop_listed {b : Buffer} {header : Header}
    (hoffset : header.rootIndexOffset = rootIndexStart) {entries : List Entry}
    (hsorted : entries.Pairwise fun e e' => e.keyHash64 ≤ e'.keyHash64)
    (hsections : ∀ entry ∈ entries, EntryInSections header entry) {i previousHash : UInt64}
    (hplace : 128 + i.toNat * 24 < 2 ^ 64)
    (hat : HasAt b.bytes (128 + i.toNat * 24) (entries.flatMap Entry.encode))
    (hcount : i.toNat + entries.length = header.rootCount.toNat)
    (hprevious : i ≠ 0 → ∀ entry ∈ entries, previousHash ≤ entry.keyHash64) :
    verifyRootLoop b header i previousHash = .ok .ok ∧
        (i ≠ 0 → ∀ entry ∈ entries, previousHash < entry.keyHash64) ∧
        (entries.Pairwise fun e e' => e.keyHash64 < e'.keyHash64) ∨
      verifyRootLoop b header i previousHash = .ok .duplicateKey ∧
        ¬((i ≠ 0 → ∀ entry ∈ entries, previousHash < entry.keyHash64) ∧
          entries.Pairwise fun e e' => e.keyHash64 < e'.keyHash64) := by
  induction entries generalizing i previousHash with
  | nil =>
    have hend : i = header.rootCount := UInt64.toNat_inj.mp hcount
    refine .inl ⟨?_, fun _ _ he => absurd he List.not_mem_nil, List.Pairwise.nil⟩
    rw [verifyRootLoop, hend, if_neg (UInt64.lt_irrefl _)]
  | cons entry entries ih =>
    rw [List.flatMap_cons, hasAt_append, Entry.length_encode] at hat
    rw [List.length_cons] at hcount
    rw [List.forall_mem_cons] at hsections
    obtain ⟨hfirst, hrest⟩ := hat
    obtain ⟨hsmaller, hsorted⟩ := List.pairwise_cons.mp hsorted
    have hlt : i < header.rootCount := by
      rw [UInt64.lt_iff_toNat_lt]
      omega
    obtain ⟨hsucc, hle, hne, hplace'⟩ := rootLoop_next hlt hfirst
    have hload : loadEntry b (header.rootIndexOffset + i * rootEntrySize) = .ok entry :=
      loadEntry_eq_ok.mpr (by rwa [rootEntry_place hoffset hplace])
    rw [verifyRootLoop, if_pos hlt, hload]
    simp only
    by_cases hequal : i ≠ 0 ∧ entry.keyHash64 = previousHash
    · -- the scan ends here
      rw [verifyRootEntry_of_equal hequal.1 hequal.2, if_neg (by decide)]
      refine .inr ⟨rfl, ?_⟩
      rintro ⟨hgreater, -⟩
      have hgt := hgreater hequal.1 entry List.mem_cons_self
      rw [hequal.2] at hgt
      exact UInt64.lt_irrefl _ hgt
    · have hgreater : i ≠ 0 → previousHash < entry.keyHash64 := by
        intro hi
        refine UInt64.lt_of_le_of_ne (hprevious hi entry List.mem_cons_self) ?_
        intro heq
        exact hequal ⟨hi, heq.symm⟩
      rw [if_pos (verifyRootEntry_eq_ok.mpr ⟨hgreater, hsections.1⟩)]
      rcases ih hsorted hsections.2 hplace' (by rwa [hsucc, Nat.succ_mul, ← Nat.add_assoc])
        (by omega) (fun _ => hsmaller) with ⟨hok, hrest, hstrict⟩ | ⟨hduplicate, hnot⟩
      · refine .inl ⟨hok, ?_, List.pairwise_cons.mpr ⟨hrest hne, hstrict⟩⟩
        intro hi
        refine List.forall_mem_cons.mpr ⟨hgreater hi, ?_⟩
        intro e he
        exact UInt64.lt_trans (hgreater hi) (hrest hne e he)
      · refine .inr ⟨hduplicate, ?_⟩
        rintro ⟨-, hpairwise⟩
        obtain ⟨hfollowing, hpairwise⟩ := List.pairwise_cons.mp hpairwise
        exact hnot ⟨fun _ => hfollowing, hpairwise⟩

theorem RootsListed.held_of_sorted {b : Buffer} {header : Header} {entries : List Entry}
    (h : RootsListed b header entries)
    (hsorted : entries.Pairwise fun e e' => e.keyHash64 < e'.keyHash64) :
    RootsHeld b header entries := ⟨h.held, h.count_eq, hsorted, h.inSections⟩

theorem RootsHeld.listed {b : Buffer} {header : Header} {entries : List Entry}
    (h : RootsHeld b header entries) : RootsListed b header entries :=
  ⟨h.held, h.count_eq, h.sorted.imp fun hlt => UInt64.le_of_lt hlt, h.inSections⟩

/-- On such an index the pass finds a duplicate if and only if two hashes are equal. -/
theorem RootsListed.verifyRootIndex {b : Buffer} {header : Header} {entries : List Entry}
    (h : RootsListed b header entries) (hoffset : header.rootIndexOffset = rootIndexStart) :
    verifyRootIndex b header = .ok (if entries.Pairwise fun e e' => e.keyHash64 < e'.keyHash64
      then .ok else .duplicateKey) := by
  have hzero : (0 : UInt64).toNat = 0 := rfl
  rcases verifyRootLoop_listed hoffset h.sorted h.inSections (i := 0)
    (by rw [hzero]; omega) (by rw [hzero]; exact h.held) (by rw [hzero, h.count_eq]; omega)
    (fun hne => absurd rfl hne) with ⟨hok, -, hstrict⟩ | ⟨hduplicate, hnot⟩
  · rw [if_pos hstrict]
    exact hok
  · rw [if_neg]
    · exact hduplicate
    · intro hstrict
      exact hnot ⟨fun hne => absurd rfl hne, hstrict⟩

/-! ## The verifier -/

/-- What the verifier accepts: an envelope in order, a payload with the checksum, a strings
section of strings and a root index of entries in order. -/
theorem verifyBuffer_eq_ok {hash64 : List UInt8 → UInt64} {b : Buffer} :
    verifyBuffer hash64 b = .ok .ok ↔ ∃ header, Enveloped b header ∧
      (∃ payload, load b header.rootIndexOffset
          (header.footerOffset - header.rootIndexOffset).toNat = .ok payload ∧
        hash64 payload = header.checksumXxh3) ∧
      (∃ strings, PoolHeld b header strings) ∧ ∃ entries, RootsHeld b header entries := by
  constructor
  · intro h
    by_cases henveloped : ∃ header, Enveloped b header
    · obtain ⟨header, henvelope⟩ := henveloped
      rw [verifyBuffer_of_enveloped henvelope, verifyPayload] at h
      obtain ⟨payload, hload, h⟩ := bind_eq_ok.mp h
      split at h
      · cases h
      · rename_i hsum
        obtain ⟨stringsStatus, hstrings, h⟩ := bind_eq_ok.mp h
        split at h
        · rename_i hne
          cases h
          exact absurd rfl hne
        · rename_i hok
          rw [not_not.mp hok] at hstrings
          exact ⟨header, henvelope, ⟨payload, hload, not_not.mp hsum⟩,
            verifyStringsPool_eq_ok.mp hstrings,
            (verifyRootIndex_eq_ok henvelope.layout.rootIndexOffset).mp h⟩
    · obtain ⟨s, hs, hs'⟩ := verifyBuffer_of_not_enveloped hash64 (not_exists.mp henveloped)
      rw [hs] at h
      cases h
      cases hs'
  · rintro ⟨header, henvelope, ⟨payload, hload, hsum⟩, hstrings, hroots⟩
    rw [verifyBuffer_of_enveloped henvelope, verifyPayload, hload, ok_bind,
      if_neg (not_not.mpr hsum), verifyStringsPool_eq_ok.mpr hstrings, ok_bind,
      if_neg (not_not.mpr rfl),
      (verifyRootIndex_eq_ok henvelope.layout.rootIndexOffset).mpr hroots]

end Hrbl
