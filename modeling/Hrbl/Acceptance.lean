import Hrbl.Placement
import Hrbl.RootScan

/-!
# What the writer produces, the verifier accepts

The file of a document against the passes of the verifier: the envelope, the checksum, the
strings pool and the root index.
-/

namespace Hrbl

open Lib Lib.Outcome

mutual

/-- The keys and the string values below a value. -/
def valueTexts : Value → List Bytes
  | .scalar s => s.uses
  | .block members => membersTexts members
  | .array elements => elementsTexts elements

/-- The keys and the string values of members. -/
def membersTexts : List (Bytes × Value) → List Bytes
  | [] => []
  | (key, value) :: members => key :: valueTexts value ++ membersTexts members

def elementsTexts : List Value → List Bytes
  | [] => []
  | value :: elements => valueTexts value ++ elementsTexts elements

end

/-! ## Strings -/

mutual

/-- What is collected from a document is among its keys and string values. -/
theorem valueUses_subset : ∀ value : Value, valueUses value ⊆ valueTexts value
  | .scalar _ => List.Subset.refl _
  | .block members => membersUses_subset members
  | .array elements => elementsUses_subset elements

theorem membersUses_subset : ∀ members : List (Bytes × Value),
    membersUses members ⊆ membersTexts members
  | [] => List.Subset.refl _
  | (key, value) :: members => by
    intro u hu
    rw [membersUses, List.append_assoc, List.mem_append, List.mem_append, keyUses] at hu
    rw [membersTexts, List.cons_append, List.mem_cons, List.mem_append]
    rcases hu with hkey | hvalue | hmembers
    · split at hkey
      · exact absurd hkey List.not_mem_nil
      · exact .inl (List.mem_singleton.mp hkey)
    · exact .inr (.inl (valueUses_subset value hvalue))
    · exact .inr (.inr (membersUses_subset members hmembers))

theorem elementsUses_subset : ∀ elements : List Value,
    elementsUses elements ⊆ elementsTexts elements
  | [] => List.Subset.refl _
  | value :: elements => by
    intro u hu
    rw [elementsUses, List.mem_append] at hu
    rw [elementsTexts, List.mem_append]
    exact hu.imp (fun h => valueUses_subset value h) fun h => elementsUses_subset elements h

end

section

variable {hash64 : Bytes → UInt64} {document : Document} {b : Buffer}

/-- The strings of a file are keys, string values and the empty string. -/
theorem mem_of_mem_documentStrings {s : Bytes} (h : s ∈ documentStrings hash64 document) :
    s = [] ∨ s ∈ membersTexts document := by
  have hmem := (documentStrings_isPrefix hash64 document).subset h
  have hcollected : s ∈ collectedStrings document ∨ s = [] := by
    unfold internString at hmem
    split at hmem
    · exact .inl hmem
    · rwa [List.mem_append, List.mem_singleton] at hmem
  refine hcollected.symm.imp_right fun hs => membersUses_subset document ?_
  rcases mem_internAll.mp hs with hnil | huses
  · exact absurd hnil List.not_mem_nil
  · exact huses

/-- The strings pool of the file of a document. -/
theorem document_poolHeld (hbytes : b.bytes = documentFile hash64 document)
    (hsize : documentSize hash64 document < 2 ^ 32)
    (hutf8 : ∀ s ∈ membersTexts document, IsUtf8 s) :
    PoolHeld b (documentHeader hash64 document) (documentStrings hash64 document) := by
  obtain ⟨hnodes, hstrings, hfooter, hend⟩ := document_parts hash64 document
  have hcount : 4 * (documentStrings hash64 document).length ≤
      (poolBytes (documentStrings hash64 document)).length := four_mul_length_le_poolBytes _
  constructor
  case utf8 =>
    intro s hs
    rcases mem_of_mem_documentStrings hs with rfl | htext
    · exact isUtf8_nil
    · exact hutf8 s htext
  case length_le =>
    intro s hs
    have hplace := poolOffsetOf_lt hs
    have hle := le_alignUpNat (show 0 < 4 by omega) s.length
    rw [length_record] at hplace
    simp only [lengthMax]
    omega
  case held =>
    have hplace : (documentHeader hash64 document).stringsOffset.toNat =
        stringsStart hash64 document := toNat_ofNat_of_lt64 (by omega)
    rw [hplace]
    exact (document_hasAt hbytes).2.2
  case size_eq => exact (toNat_ofNat_of_lt64 (by omega)).symm
  case count_eq => exact (toNat_ofNat_of_lt64 (by omega)).symm

end

/-! ## Roots -/

/-- Where the values of members are. -/
theorem membersImage_bounds {hash64 : Bytes → UInt64} {base : Nat} :
    ∀ {members : List (Bytes × Value)} {pos : Nat},
      ∀ m ∈ (membersImage hash64 base pos members).1, base + pos ≤ m.2 ∧
        m.2 < base + pos + imageWidth (membersImage hash64 base pos members).2
  | [], _, m, hm => absurd hm List.not_mem_nil
  | (key, value) :: members, pos, m, hm => by
    have hkind := lt_kindOffset_add value.bodyAlign_pos pos
    have hwidth := kindOffset_lt_width hash64 base value pos
    rw [membersImage_cons] at hm ⊢
    rw [imageWidth_append]
    rcases List.mem_cons.mp hm with rfl | hm
    · simp only
      omega
    · have hbounds := membersImage_bounds m hm
      omega

section

variable {hash64 : Bytes → UInt64} {document : Document} {b : Buffer}

/-- The root index of the file of a document, in the order of the hashes. -/
theorem document_rootsListed (hbytes : b.bytes = documentFile hash64 document)
    (hsize : documentSize hash64 document < 2 ^ 32) :
    RootsListed b (documentHeader hash64 document)
      ((stableSort (fun m => (hash64 m.1).toNat)
        (membersImage hash64 (nodesStart document) 0 document).1).map
          (entryWith hash64 (documentAddress hash64 document))) := by
  obtain ⟨hnodes, hstrings, hfooter, hend⟩ := document_parts hash64 document
  have hperm := stableSort_perm (fun m : Bytes × Nat => (hash64 m.1).toNat)
    (membersImage hash64 (nodesStart document) 0 document).1
  constructor
  case held =>
    rw [← render_entriesImage]
    exact (document_hasAt hbytes).1
  case count_eq =>
    rw [List.length_map, length_stableSort, length_membersImage]
    exact (toNat_ofNat_of_lt64 (by omega)).symm
  case sorted =>
    have hsorted := (isStableSort_stableSort (fun m : Bytes × Nat => (hash64 m.1).toNat)
      (membersImage hash64 (nodesStart document) 0 document).1).sorted
    rw [List.pairwise_map]
    exact hsorted.imp fun {m n} h => UInt64.le_iff_toNat_le.mpr h
  case inSections =>
    intro entry hentry
    obtain ⟨m, hm, rfl⟩ := List.mem_map.mp hentry
    have hlaid := hperm.mem_iff.mp hm
    obtain ⟨hge, hlt⟩ := membersImage_bounds m hlaid
    have hkey : m.1 ∈ documentStrings hash64 document := by
      have hkey := List.mem_map_of_mem (f := Prod.fst) hlaid
      rw [membersImage_keys] at hkey
      exact mem_documentStrings (List.mem_append_left _ hkey)
    obtain ⟨haddress, hlength, hplace⟩ := document_address hsize hkey
    have hvalue := toNat_ofNat_of_lt64 (show m.2 < 2 ^ 64 by omega)
    have hbase := toNat_ofNat_of_lt64 (show nodesStart document < 2 ^ 64 by omega)
    have hpool := toNat_ofNat_of_lt64 (show stringsStart hash64 document < 2 ^ 64 by omega)
    have hroom := toNat_ofNat_of_lt64
      (show (poolBytes (documentStrings hash64 document)).length < 2 ^ 64 by omega)
    have hfour : (4 : UInt64).toNat = 4 := rfl
    constructor
    all_goals
      simp only [entryWith, documentHeader, UInt64.le_iff_toNat_le, UInt64.lt_iff_toNat_lt,
        UInt64.toNat_add, UInt32.toNat_toUInt64, haddress, hlength, hvalue, hbase, hpool, hroom,
        hfour]
      omega

/-- No two of the entries have the same hash when no two of the keys have. -/
theorem documentEntries_sorted_iff :
    (((stableSort (fun m => (hash64 m.1).toNat)
        (membersImage hash64 (nodesStart document) 0 document).1).map
          (entryWith hash64 (documentAddress hash64 document))).Pairwise
            fun e e' => e.keyHash64 < e'.keyHash64) ↔
      (document.map fun m => hash64 m.1).Nodup := by
  have hperm := stableSort_perm (fun m : Bytes × Nat => (hash64 m.1).toNat)
    (membersImage hash64 (nodesStart document) 0 document).1
  have hsorted := (isStableSort_stableSort (fun m : Bytes × Nat => (hash64 m.1).toNat)
    (membersImage hash64 (nodesStart document) 0 document).1).sorted
  have hkeys := congrArg (List.map hash64)
    (membersImage_keys hash64 (nodesStart document) 0 document)
  rw [List.map_map, List.map_map] at hkeys
  have hsame : (document.map fun m => hash64 m.1).Nodup ↔
      ((stableSort (fun m => (hash64 m.1).toNat)
        (membersImage hash64 (nodesStart document) 0 document).1).map
          fun m => hash64 m.1).Nodup := by
    rw [(hperm.map fun m => hash64 m.1).nodup_iff]
    exact iff_of_eq (congrArg List.Nodup hkeys.symm)
  rw [hsame, List.pairwise_map, List.Nodup, List.pairwise_map]
  constructor
  · exact fun h => h.imp fun hlt => UInt64.ne_of_lt hlt
  · intro hnodup
    refine (hsorted.and hnodup).imp fun {m n} h => ?_
    exact UInt64.lt_of_le_of_ne (UInt64.le_iff_toNat_le.mpr h.1) h.2

/-- The root index of the file of a document, when no two of its keys have the same hash. -/
theorem document_rootsHeld (hbytes : b.bytes = documentFile hash64 document)
    (hsize : documentSize hash64 document < 2 ^ 32)
    (hdistinct : (document.map fun m => hash64 m.1).Nodup) :
    RootsHeld b (documentHeader hash64 document)
      ((stableSort (fun m => (hash64 m.1).toNat)
        (membersImage hash64 (nodesStart document) 0 document).1).map
          (entryWith hash64 (documentAddress hash64 document))) :=
  (document_rootsListed hbytes hsize).held_of_sorted (documentEntries_sorted_iff.mpr hdistinct)

/-- The verifier accepts the file of a document. -/
theorem verifyBuffer_document (hbytes : b.bytes = documentFile hash64 document)
    (hsize : documentSize hash64 document < 2 ^ 32)
    (hutf8 : ∀ s ∈ membersTexts document, IsUtf8 s)
    (hdistinct : (document.map fun m => hash64 m.1).Nodup) :
    verifyBuffer hash64 b = .ok .ok := by
  have hsealed := document_sealed hbytes
  exact verifyBuffer_eq_ok.mpr ⟨_, hsealed.enveloped, ⟨_, hsealed.load_payload, rfl⟩,
    ⟨_, document_poolHeld hbytes hsize hutf8⟩, _, document_rootsHeld hbytes hsize hdistinct⟩

end

/-- A file the writer returns passes the verifier, when its keys and strings are well-formed
UTF-8 and no two root keys have the same hash. -/
theorem written_verifies {env : Env} {options : Option WriterOptions} {ops : List Op} {w : Writer}
    (hrun : (Writer.create options).runs env ops = some w) (hclosed : w.currentScope = none) :
    ∃ document : Document, Builder.empty.run ops = some ⟨document, []⟩ ∧
      (documentSize env.hash64 document < 2 ^ 32 → (∀ s ∈ membersTexts document, IsUtf8 s) →
        (document.map fun m => env.hash64 m.1).Nodup →
        w.Finalizes env document fun b => verifyBuffer env.hash64 b = .ok .ok) := by
  obtain ⟨document, hb, hwritten⟩ := runs_written hrun hclosed
  refine ⟨document, hb, fun hsize hutf8 hdistinct => (hwritten hsize).mono fun b hbytes => ?_⟩
  exact verifyBuffer_document hbytes hsize hutf8 hdistinct

/-- An empty key with a block, and a string that is also a key. -/
theorem written_verifies_empty_key :
    ∃ w b w', (Writer.create none).runs (.succeeding fun key => UInt64.ofNat key.length)
        [.beginBlock (.data []), .setNull (.data [0x61]), .endBlock,
          .setString (.data [0x61]) [0x61]] = some w ∧
      finalizeToBuffer (.succeeding fun key => UInt64.ofNat key.length) w =
        .returned b.bytes w' ∧
      verifyBuffer (fun key => UInt64.ofNat key.length) b = .ok .ok := by
  obtain ⟨w, hrun, hclosed, hworkers⟩ : ∃ w, (Writer.create none).runs
      (.succeeding fun key => UInt64.ofNat key.length)
      [.beginBlock (.data []), .setNull (.data [0x61]), .endBlock,
        .setString (.data [0x61]) [0x61]] = some w ∧ w.currentScope = none ∧
        WorkersFit w.options.workerCount := ⟨_, rfl, rfl, by decide⟩
  obtain ⟨document, hb, hfile⟩ := written_verifies hrun hclosed
  cases hb
  have hutf8 : ∀ s ∈ membersTexts [([], .block [([0x61], .scalar .null)]),
      ([0x61], .scalar (.string [0x61]))], IsUtf8 s :=
    fun s hs => isUtf8_of_ascii (by revert s; decide +kernel)
  obtain ⟨b, w', hreturned, hverified⟩ :=
    (hfile (by decide +kernel) hutf8 (by decide)).returned (Env.succeeding_succeeds _) hworkers
  exact ⟨w, b, w', hrun, hreturned, hverified⟩

/-! ## Duplicates -/

/-- What the verifier says of the file of a document whose keys may collide. -/
theorem verifyBuffer_collisions {hash64 : Bytes → UInt64} {document : Document} {b : Buffer}
    (hbytes : b.bytes = documentFile hash64 document)
    (hsize : documentSize hash64 document < 2 ^ 32)
    (hutf8 : ∀ s ∈ membersTexts document, IsUtf8 s) :
    verifyBuffer hash64 b =
      .ok (if (document.map fun m => hash64 m.1).Nodup then .ok else .duplicateKey) := by
  have hsealed := document_sealed hbytes
  have hsum : hash64 (documentPayload hash64 document) =
      (documentHeader hash64 document).checksumXxh3 := rfl
  have hpool := verifyStringsPool_eq_ok.mpr ⟨_, document_poolHeld hbytes hsize hutf8⟩
  have hroots := (document_rootsListed hbytes hsize).verifyRootIndex rfl
  rw [verifyBuffer_of_enveloped hsealed.enveloped, verifyPayload, hsealed.load_payload, ok_bind,
    if_neg (not_not.mpr hsum), hpool, ok_bind, if_neg (not_not.mpr rfl), hroots]
  simp only [documentEntries_sorted_iff]

/-- The verifier compares hashes where the writer and the reader compare keys. So what it reports
as a duplicate is a key that the root has twice, if and only if the hash function does not
give two hashes alike to keys that are all different. -/
theorem duplicate_reported_iff {env : Env} {options : Option WriterOptions} {ops : List Op}
    {w : Writer} (hrun : (Writer.create options).runs env ops = some w)
    (hclosed : w.currentScope = none) :
    ∃ document : Document, Builder.empty.run ops = some ⟨document, []⟩ ∧
      (documentSize env.hash64 document < 2 ^ 32 → (∀ s ∈ membersTexts document, IsUtf8 s) →
        w.Finalizes env document fun b =>
          ((verifyBuffer env.hash64 b = .ok .duplicateKey → ¬(document.map Prod.fst).Nodup) ↔
            ((document.map Prod.fst).Nodup → (document.map fun m => env.hash64 m.1).Nodup))) := by
  obtain ⟨document, hb, hwritten⟩ := runs_written hrun hclosed
  refine ⟨document, hb, ?_⟩
  intro hsize hutf8
  refine (hwritten hsize).mono fun b hbytes => ?_
  rw [verifyBuffer_collisions hbytes hsize hutf8]
  by_cases hhashes : (document.map fun m => env.hash64 m.1).Nodup
  · rw [if_pos hhashes]
    exact iff_of_true (fun h => by cases h) fun _ => hhashes
  · rw [if_neg hhashes]
    constructor
    · exact fun h hkeys => absurd hkeys (h rfl)
    · exact fun h _ hkeys => hhashes (h hkeys)

/-- Two keys of different lengths, told apart by the hash. -/
theorem duplicate_reported_iff_lengths :
    ∃ w b w', (Writer.create none).runs (.succeeding fun key => UInt64.ofNat key.length)
        [.setNull (.data [0x61]), .setNull (.data [0x61, 0x61])] = some w ∧
      finalizeToBuffer (.succeeding fun key => UInt64.ofNat key.length) w =
        .returned b.bytes w' ∧
      (verifyBuffer (fun key => UInt64.ofNat key.length) b = .ok .duplicateKey →
        ¬[[0x61], [(0x61 : UInt8), 0x61]].Nodup) := by
  obtain ⟨w, hrun, hclosed, hworkers⟩ : ∃ w, (Writer.create none).runs
      (.succeeding fun key => UInt64.ofNat key.length)
      [.setNull (.data [0x61]), .setNull (.data [0x61, 0x61])] = some w ∧
        w.currentScope = none ∧ WorkersFit w.options.workerCount := ⟨_, rfl, rfl, by decide⟩
  obtain ⟨document, hb, hfile⟩ := duplicate_reported_iff hrun hclosed
  obtain rfl : document = [([0x61], .scalar .null), ([0x61, 0x61], .scalar .null)] := by
    cases hb
    rfl
  have hutf8 : ∀ s ∈ membersTexts [([0x61], .scalar .null), ([0x61, 0x61], .scalar .null)],
      IsUtf8 s := fun s hs => isUtf8_of_ascii (by revert s; decide +kernel)
  obtain ⟨b, w', hreturned, hreported⟩ :=
    (hfile (by decide +kernel) hutf8).returned (Env.succeeding_succeeds _) hworkers
  exact ⟨w, b, w', hrun, hreturned, hreported.mpr (by decide)⟩

/-- Two keys, one hash: the writer writes both and the verifier calls them a duplicate. -/
theorem collision_reported : ¬∀ (env : Env) (options : Option WriterOptions) (ops : List Op)
    (w w' : Writer) (document : Document) (b : Buffer), env.Succeeds →
    (Writer.create options).runs env ops = some w → w.currentScope = none →
    Builder.empty.run ops = some ⟨document, []⟩ → documentSize env.hash64 document < 2 ^ 32 →
    (∀ s ∈ membersTexts document, IsUtf8 s) → finalizeToBuffer env w = .returned b.bytes w' →
    verifyBuffer env.hash64 b = .ok .duplicateKey → ¬(document.map Prod.fst).Nodup := by
  intro hall
  obtain ⟨w, hrun, hclosed, hworkers⟩ : ∃ w, (Writer.create none).runs (.succeeding fun _ => 0)
      [.setNull (.data [0x61]), .setNull (.data [0x62])] = some w ∧
        w.currentScope = none ∧ WorkersFit w.options.workerCount := ⟨_, rfl, rfl, by decide⟩
  obtain ⟨document, hb, hwritten⟩ := runs_written hrun hclosed
  obtain rfl : document = [([0x61], .scalar .null), ([0x62], .scalar .null)] := by
    cases hb
    rfl
  have hutf8 : ∀ s ∈ membersTexts [([0x61], .scalar .null), ([0x62], .scalar .null)],
      IsUtf8 s := fun s hs => isUtf8_of_ascii (by revert s; decide +kernel)
  have hsize : documentSize (fun _ => 0) [([0x61], .scalar .null), ([0x62], .scalar .null)] <
      2 ^ 32 := by decide +kernel
  obtain ⟨b, w', hreturned, hbytes⟩ :=
    (hwritten hsize).returned (Env.succeeding_succeeds _) hworkers
  have hverify := verifyBuffer_collisions hbytes hsize hutf8
  exact hall _ none _ w w' _ b (Env.succeeding_succeeds _) hrun hclosed hb hsize hutf8 hreturned
    hverify (by decide)

end Hrbl
