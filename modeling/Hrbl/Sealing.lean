import Hrbl.Reaching
import Hrbl.Placement
import Hrbl.Session
import Hrbl.Tampering

/-!
# What is left of a file

The copies into the output are checked against its size by the system only, but a file that is
returned has had them all inside. So of every writer, whatever nodes it has, the file that
`finalize_to_buffer` returns is a header, a payload with its checksum, and a footer. The header
counts the bytes of the whole file: what a failed `write` leaves of it on disk is refused by the
reader and by the verifier.
-/

namespace Hrbl

open Lib Lib.Outcome

/-! ## Output -/

/-- A copy is inside of the output, and leaves what is apart from it. -/
theorem storeOutput_keeps (output bytes : Bytes) (offset : UInt64) :
    Returns (fun output' => offset.toNat + bytes.length ≤ output.length ∧
      output'.length = output.length ∧
      (∀ i xs, i + xs.length ≤ offset.toNat ∨ offset.toNat + bytes.length ≤ i →
        HasAt output i xs → HasAt output' i xs) ∧ HasAt output' offset.toNat bytes)
      (storeOutput output offset bytes) := by
  unfold storeOutput
  refine Returns.ite (fun hin => Returns.pure
    ⟨hin, length_overwrite hin, ?_, hasAt_overwrite_self hin⟩) fun _ => Returns.throw _
  intro i xs hapart hat
  exact hat.overwrite hin hapart

/-- The root index is copied behind the header. -/
theorem storeRootIndex_keeps (entries : List Entry) :
    ∀ (output : Bytes) (offset : UInt64), output.length < 2 ^ 64 → 128 ≤ offset.toNat →
      Returns (fun output' => output'.length = output.length ∧
        ∀ xs, xs.length = 128 → HasAt output 0 xs → HasAt output' 0 xs)
        (storeRootIndex entries offset output) := by
  induction entries with
  | nil =>
    intro output offset _ _
    exact Returns.pure ⟨rfl, fun _ _ h => h⟩
  | cons entry entries ih =>
    intro output offset hlt hoffset
    have hsize : rootEntrySize.toNat = 24 := rfl
    have hlength := entry.length_encode
    refine (storeOutput_keeps output entry.encode offset).bind_of ?_
    rintro output₁ ⟨hin, hsame, hkeeps, -⟩
    have hnext : (offset + rootEntrySize).toNat = offset.toNat + 24 := by
      rw [UInt64.toNat_add, hsize]
      omega
    refine (ih output₁ (offset + rootEntrySize) (by omega) (by omega)).mono ?_
    rintro output₂ ⟨hsame₂, hkeeps₂⟩
    refine ⟨hsame₂.trans hsame, fun xs hxs hat => hkeeps₂ xs hxs (hkeeps 0 xs ?_ hat)⟩
    exact .inl (by omega)

section

variable {n : UInt32} {nodes strings : Bytes} {count : UInt64} {header : Header}
  (hheader : header = fileHeader n.toUInt64 (UInt64.ofNat nodes.length)
    (UInt64.ofNat strings.length) count)

include hheader

/-- When the nodes and the strings are inside of the output, no sum has wrapped. -/
theorem fileHeader_sums (hnodes : header.nodesOffset.toNat + nodes.length ≤ header.fileSize.toNat)
    (hstrings : header.stringsOffset.toNat + strings.length ≤ header.fileSize.toNat) :
    128 ≤ header.nodesOffset.toNat ∧ header.nodesOffset.toNat ≤ header.stringsOffset.toNat ∧
      header.stringsOffset.toNat ≤ header.footerOffset.toNat ∧
      header.fileSize.toNat = header.footerOffset.toNat + 32 := by
  have hlt := header.fileSize.toNat_lt
  have hn := n.toNat_lt
  have hstart : rootIndexStart.toNat = 128 := rfl
  have hentry : rootEntrySize.toNat = 24 := rfl
  have hfooter : footerSize.toNat = 32 := rfl
  have hplace : header.nodesOffset.toNat = 128 + n.toNat * 24 := by
    rw [hheader, fileHeader, UInt64.toNat_add, UInt64.toNat_mul, hstart, hentry,
      UInt32.toNat_toUInt64]
    omega
  have hnodesSize : (UInt64.ofNat nodes.length).toNat = nodes.length :=
    toNat_ofNat_of_lt64 (by omega)
  have hstringsOffset : header.stringsOffset.toNat = header.nodesOffset.toNat + nodes.length := by
    have hsum : header.stringsOffset = header.nodesOffset + UInt64.ofNat nodes.length := by
      rw [hheader, fileHeader]
    rw [hsum, UInt64.toNat_add, hnodesSize]
    omega
  have hstringsSize : (UInt64.ofNat strings.length).toNat = strings.length :=
    toNat_ofNat_of_lt64 (by omega)
  have hfooterOffset : header.footerOffset.toNat =
      header.stringsOffset.toNat + strings.length := by
    have hsum : header.footerOffset = header.stringsOffset + UInt64.ofNat strings.length := by
      rw [hheader, fileHeader]
    rw [hsum, UInt64.toNat_add, hstringsSize]
    omega
  have hend : header.fileSize = header.footerOffset + footerSize := by
    rw [hheader, fileHeader]
  have hsize := congrArg UInt64.toNat hend
  rw [UInt64.toNat_add, hfooter] at hsize
  omega

/-- The parts are copied behind a header, and leave room for a footer. -/
theorem copyParts_sections (entries : List Entry) {patched : Bytes}
    (hpatched : patched.length = nodes.length) :
    Returns (fun output => ∃ payload rest, output = header.encode ++ payload ++ rest ∧
      header.footerOffset.toNat = 128 + payload.length ∧ rest.length = 32 ∧
      header.fileSize.toNat = header.footerOffset.toNat + 32)
      (copyParts header entries patched strings) := by
  have hlt := header.fileSize.toNat_lt
  have hlength := header.length_encode
  have hstart : rootIndexStart.toNat = 128 := rfl
  unfold copyParts
  refine (storeOutput_keeps _ _ _).bind_of ?_
  rintro output₁ ⟨hin₁, hsame₁, -, hat₁⟩
  rw [List.length_replicate] at hin₁ hsame₁
  refine (storeRootIndex_keeps entries output₁ rootIndexStart (by omega) (by omega)).bind_of ?_
  rintro output₂ ⟨hsame₂, hkeeps₂⟩
  have hat₂ := hkeeps₂ header.encode hlength hat₁
  refine (storeOutput_keeps _ _ _).bind_of ?_
  rintro output₃ ⟨hin₃, hsame₃, hkeeps₃, -⟩
  refine (storeOutput_keeps _ _ _).mono ?_
  rintro output₄ ⟨hin₄, hsame₄, hkeeps₄, -⟩
  obtain ⟨hnodes, hstrings, hfooter, hsize⟩ := fileHeader_sums hheader (by omega) (by omega)
  have hat₃ := hkeeps₃ 0 header.encode (.inl (by omega)) hat₂
  have hat₄ := hkeeps₄ 0 header.encode (.inl (by omega)) hat₃
  -- the header is still in front, and what is behind the strings is as long as a footer
  obtain ⟨behind, hbytes⟩ := hat₄
  have hlengths := congrArg List.length hbytes
  rw [List.drop_zero, List.length_append] at hlengths
  refine ⟨behind.take (header.footerOffset.toNat - 128),
    behind.drop (header.footerOffset.toNat - 128), ?_, ?_, ?_, hsize⟩
  · rw [List.append_assoc, List.take_append_drop]
    exact hbytes.symm
  · rw [List.length_take]
    omega
  · rw [List.length_drop]
    omega

end

/-! ## Sealed files -/

/-- A file is a header that counts its bytes, a payload with this checksum, and a footer. -/
structure Stamped (hash64 : Bytes → UInt64) (file : Bytes) (header : Header) (payload : Bytes) :
    Prop where
  layout : header.LayoutAccepted header.fileSize
  fileSize : header.fileSize.toNat = file.length
  checksum : header.checksumXxh3 = hash64 payload
  bytes_eq : ∃ footer : Footer, file = header.encode ++ payload ++ footer.encode ∧
    footer.magicEnd = magicNumber ∧ footer.fileSize = header.fileSize ∧
    footer.checksumXxh3 = header.checksumXxh3

theorem Stamped.sealed {hash64 : Bytes → UInt64} {b : Buffer} {header : Header} {payload : Bytes}
    (h : Stamped hash64 b.bytes header payload) : Sealed b header payload := by
  have hsize : b.size = header.fileSize := by
    refine UInt64.toNat_inj.mp ?_
    rw [Buffer.toNat_size, h.fileSize]
  constructor
  · rw [hsize]
    exact h.layout
  · exact h.bytes_eq

/-- The header that the writer makes is accepted for the size it has. -/
theorem fileHeader_accepted (n : UInt32) (nodesSize stringsSize stringsCount checksum : UInt64) :
    ({ fileHeader n.toUInt64 nodesSize stringsSize stringsCount with
      checksumXxh3 := checksum } : Header).LayoutAccepted
        (fileHeader n.toUInt64 nodesSize stringsSize stringsCount).fileSize := by
  have hn := n.toNat_lt
  have hmax : rootCountMax.toNat = 768614336404564650 := rfl
  constructor
  case versionMinor => exact UInt16.le_refl _
  case flagsRequired =>
    change flagsV1Required &&& flagsV1Required = flagsV1Required
    decide
  case flagsReserved =>
    change flagsV1Required &&& flagsV1ReservedMask = 0
    decide
  case rootCount =>
    refine UInt64.le_iff_toNat_le.mpr ?_
    change n.toUInt64.toNat ≤ rootCountMax.toNat
    rw [UInt32.toNat_toUInt64, hmax]
    omega
  all_goals intros
  all_goals rfl

/-- What is put together is stamped. -/
theorem assemble_stamped (env : Env) (n : UInt32) (entries : List Entry) (nodes : EncoderBuffer)
    (pool : Pool) :
    Returns (fun file => ∃ header payload, Stamped env.hash64 file header payload)
      (assemble env n.toUInt64 entries nodes pool) := by
  unfold assemble
  generalize hheader : fileHeader n.toUInt64 (UInt64.ofNat nodes.data.length)
    (UInt64.ofNat pool.buffer.data.length) (UInt64.ofNat pool.entries.length) = header
  have hpatched : Returns (fun patched => patched.data.length = nodes.data.length)
      (applyFixups nodes pool header.stringsOffset) := by
    unfold applyFixups
    split
    · rename_i hfold
      exact Returns.pure (length_foldlM_addWordAt hfold)
    · exact Returns.throw _
  refine hpatched.bind_of fun patched hlength => Returns.bind fun _ => ?_
  refine (copyParts_sections hheader.symm _ hlength).bind_of ?_
  rintro output ⟨payload, rest, rfl, hfooter, hrest, hsize⟩
  refine Returns.of_yields (sealOutput_yields env hfooter hrest) ?_
  refine ⟨{ header with checksumXxh3 := env.hash64 payload }, payload, ?_, ?_, rfl, ?_⟩
  · rw [← hheader]
    exact fileHeader_accepted _ _ _ _ _
  · rw [List.length_append, List.length_append, Header.length_encode, Footer.length_encode]
    change header.fileSize.toNat = _
    omega
  · exact ⟨_, rfl, rfl, rfl, rfl⟩

/-- Whatever a writer is like, the file it returns is stamped. -/
theorem finalizeToBuffer_stamped {env : Env} {w w' : Writer} {file : Bytes}
    (h : finalizeToBuffer env w = .returned file w') :
    ∃ header payload, Stamped env.hash64 file header payload := by
  have hserialize : Returns (fun result : List Node × Bytes =>
      ∃ header payload, Stamped env.hash64 result.2 header payload) (serializeToBuffer env w) := by
    rw [serializeToBuffer]
    refine Returns.bind fun collected => ?_
    have hroots : Returns (fun file => ∃ header payload, Stamped env.hash64 file header payload)
        (emitRoots env w collected.1 collected.2) := by
      rw [emitRoots_eq]
      exact Returns.bind fun emitted => assemble_stamped env w.rootCount _ _ _
    exact (hroots.adapt _).bind_of fun file hfile => Returns.pure hfile
  unfold finalizeToBuffer at h
  split at h
  · cases h
  split at h
  · cases h
  split at h
  · rename_i nodes bytes calls hrun
    cases h
    exact hserialize _ _ _ hrun
  all_goals cases h

/-- What the verifier checks of a file when its envelope and its checksum are in order. -/
def verifyContents (b : Buffer) (header : Header) : Outcome VerifyStatus := do
  let stringsStatus ← verifyStringsPool b header
  if stringsStatus ≠ .ok then .ok stringsStatus
  else verifyRootIndex b header

/-- Whatever nodes a writer has, whatever allocations fail and however large the file is, a file
that `finalize_to_buffer` returns can be opened, and the verifier gets to its strings. -/
theorem finalized_opens {env : Env} {w w' : Writer} {b : Buffer}
    (h : finalizeToBuffer env w = .returned b.bytes w') :
    ∃ r, openBuffer true b = .ok r ∧
      verifyBuffer env.hash64 b = verifyContents b r.header := by
  obtain ⟨header, payload, hstamped⟩ := finalizeToBuffer_stamped h
  have henveloped := hstamped.sealed.enveloped
  refine ⟨⟨b, header⟩, openBuffer_eq_ok.mpr ⟨rfl, henveloped⟩, ?_⟩
  rw [verifyBuffer_of_enveloped henveloped, verifyPayload, hstamped.sealed.load_payload, ok_bind,
    if_neg (not_not.mpr hstamped.checksum.symm)]
  rfl

/-- A block with an array, and a string with the bytes of a key. -/
theorem finalized_opens_nested :
    ∃ w b w' r, (Writer.create none).runs (.succeeding fun key => UInt64.ofNat key.length)
        [.beginBlock (.data [0x61]), .beginArray (.data [0x62]), .appendString [0x61],
          .appendInt64 5, .beginBlock (.null 0), .setNull (.data [0x63]), .endBlock, .endArray,
          .endBlock, .setString (.data [0x61, 0x61]) [0x61]] = some w ∧
      finalizeToBuffer (.succeeding fun key => UInt64.ofNat key.length) w =
        .returned b.bytes w' ∧
      openBuffer true b = .ok r ∧
      verifyBuffer (fun key => UInt64.ofNat key.length) b = verifyContents b r.header := by
  obtain ⟨w, hrun, hclosed, hworkers⟩ : ∃ w, (Writer.create none).runs
      (.succeeding fun key => UInt64.ofNat key.length)
        [.beginBlock (.data [0x61]), .beginArray (.data [0x62]), .appendString [0x61],
          .appendInt64 5, .beginBlock (.null 0), .setNull (.data [0x63]), .endBlock, .endArray,
          .endBlock, .setString (.data [0x61, 0x61]) [0x61]] = some w ∧
        w.currentScope = none ∧ WorkersFit w.options.workerCount :=
    ⟨_, rfl, rfl, by decide⟩
  obtain ⟨document, hb, hwritten⟩ := runs_written hrun hclosed
  cases hb
  obtain ⟨b, w', hreturned, -⟩ :=
    (hwritten (by decide +kernel)).returned (Env.succeeding_succeeds _) hworkers
  obtain ⟨r, hopen, hverify⟩ := finalized_opens hreturned
  exact ⟨w, b, w', r, hrun, hreturned, hopen, hverify⟩

/-! ## Other sizes -/

/-- A header that counts another number of bytes is refused. -/
theorem Header.LayoutAccepted.other_size {header : Header} {size size' : UInt64}
    (h : header.LayoutAccepted size) (hne : size' ≠ size) :
    verifyHeaderLayout header size' = .badFileSize ∧
      readerHeaderLayoutValid header size' = false := by
  constructor
  · have hversion := UInt16.not_lt.mpr h.versionMinor
    have hsize : header.fileSize ≠ size' := fun heq => hne (heq.symm.trans h.fileSize)
    unfold verifyHeaderLayout
    rw [if_neg (not_not.mpr h.magic), if_neg (not_not.mpr h.versionMajor), if_neg hversion,
      if_neg (not_not.mpr h.flagsRequired), if_neg (not_not.mpr h.flagsReserved), if_pos hsize]
  · refine Bool.eq_false_iff.mpr fun hvalid => ?_
    have haccepted := readerHeaderLayoutValid_eq_true.mp hvalid
    exact hne (haccepted.fileSize.symm.trans h.fileSize)

/-- Of a file that counts its bytes, what has fewer of them is refused. -/
theorem Stamped.torn {hash64 : Bytes → UInt64} {file : Bytes} {header : Header} {payload : Bytes}
    (h : Stamped hash64 file header payload) {torn : Buffer} (hpart : torn.bytes <+: file)
    (hne : torn.bytes ≠ file) (allocated : Bool) (hash64' : Bytes → UInt64) :
    openBuffer allocated torn = .no ∧
      (verifyBuffer hash64' torn = .ok .tooSmall ∨
        verifyBuffer hash64' torn = .ok .badFileSize) := by
  have hlt : torn.bytes.length < file.length := by
    rcases Nat.lt_or_ge torn.bytes.length file.length with hlt | hge
    · exact hlt
    · exact absurd (hpart.eq_of_length_le hge) hne
  unfold openBuffer verifyBuffer
  by_cases hsmall : torn.bytes.length < 160
  -- not even a header and a footer
  · rw [if_pos (size_lt_iff.mpr hsmall), if_pos (size_lt_iff.mpr hsmall)]
    exact ⟨rfl, .inl rfl⟩
  -- a header that counts more bytes
  · have hsizes : torn.size ≠ header.fileSize := by
      intro heq
      have hnat := congrArg UInt64.toNat heq
      rw [Buffer.toNat_size, h.fileSize] at hnat
      omega
    have hheader : Header.decode (torn.bytes.take 128) = header := by
      obtain ⟨footer, hbytes, -⟩ := h.bytes_eq
      obtain ⟨rest, hrest⟩ := hpart
      have hfront : torn.bytes.take 128 = header.encode := by
        have htake := congrArg (List.take 128) (hrest.trans hbytes)
        rwa [List.take_append_of_le_length (by omega), List.append_assoc,
          List.take_append_of_le_length (Nat.le_of_eq header.length_encode.symm),
          List.take_of_length_le (Nat.le_of_eq header.length_encode)] at htake
      rw [hfront]
      exact Header.decode_of_hasAt (HasAt.self _)
    obtain ⟨hverify, hread⟩ := h.layout.other_size hsizes
    have hlarge := mt size_lt_iff.mp hsmall
    rw [if_neg hlarge, if_neg hlarge, loadHeader_ok (by omega), hheader, ok_bind, ok_bind, hverify,
      hread]
    exact ⟨rfl, .inr rfl⟩

/-! ## Files on disk -/

/-- `bc_hrbl_reader_open`; `mapped` is what the file is mapped to, if it can be. -/
def openFile (outReader allocated : Bool) (mapped : Option Buffer) : Outcome Reader :=
  if !outReader then .no
  else
    match mapped with
    | none => .no
    | some data => openBuffer allocated data

/-- `bc_hrbl_verify_file`; `created` is whether there is a context of the allocators. -/
def verifyFile (hash64 : Bytes → UInt64) (created : Bool) (mapped : Option Buffer) :
    Outcome VerifyStatus :=
  if !created then .ok .io
  else
    match mapped with
    | none => .ok .io
    | some data => verifyBuffer hash64 data

theorem writeAll_starts {buffer contents : Bytes} {results : List WriteResult} {written : Nat}
    {done : Bool} (h : writeAll buffer results written = some (done, contents)) :
    contents <+: buffer := by
  fun_induction writeAll buffer results written with
  | case1 => cases h
  | case2 =>
    cases h
    exact List.take_prefix _ _
  | case3 written results hlt count ih => exact ih h
  | case4 written results hlt ih => exact ih h
  | case5 =>
    cases h
    exact List.take_prefix _ _
  | case6 => cases h

/-- Whatever the calls on a file answer, it holds the first bytes of the buffer. -/
theorem storeFile_starts {buffer contents : Bytes} {file : FileCalls} {done : Bool}
    (h : storeFile buffer file = some (done, some contents)) : contents <+: buffer := by
  unfold storeFile at h
  split at h
  · cases h
  split at h
  · cases h
  · rename_i hwrites
    cases h
    exact writeAll_starts hwrites
  · rename_i hwrites
    cases h
    exact writeAll_starts hwrites

/-- What `finalize_to_file` leaves on disk, whatever the system answers to its calls: all of the
file that it has made, which can be opened, or less, which the reader and the verifier refuse by
its size. It returns `true` only when it is all there. -/
theorem stored_opens_iff {env : Env} {w w' : Writer} {file : FileCalls} {success : Bool}
    {b : Buffer} (h : finalizeToFile env w file = some (success, some b.bytes, w'))
    (hash64 : Bytes → UInt64) :
    ((∃ r, openFile true true (some b) = .ok r) ↔
      ∃ v, finalizeToBuffer env w = .returned b.bytes v) ∧
    ((¬∃ v, finalizeToBuffer env w = .returned b.bytes v) →
      openFile true true (some b) = .no ∧ (verifyFile hash64 true (some b) = .ok .tooSmall ∨
        verifyFile hash64 true (some b) = .ok .badFileSize)) ∧
    (success = true → ∃ v, finalizeToBuffer env w = .returned b.bytes v) := by
  unfold finalizeToFile at h
  cases hfinalized : finalizeToBuffer env w with
  | refused v =>
    rw [hfinalized] at h
    cases h
  | faulted =>
    rw [hfinalized] at h
    cases h
  | divergent =>
    rw [hfinalized] at h
    cases h
  | returned buffer v =>
    rw [hfinalized] at h
    obtain ⟨⟨done, contents⟩, hstore, heq⟩ := Option.map_eq_some_iff.mp h
    cases heq
    obtain ⟨header, payload, hstamped⟩ := finalizeToBuffer_stamped hfinalized
    have hsame : (∃ v, Finalized.returned buffer w' = .returned b.bytes v) ↔ b.bytes = buffer := by
      constructor
      · rintro ⟨v, heq⟩
        cases heq
        rfl
      · rintro rfl
        exact ⟨w', rfl⟩
    rw [hsame]
    by_cases hwhole : b.bytes = buffer
    -- the whole file
    · have hopen : openFile true true (some b) = .ok ⟨b, header⟩ := by
        rw [← hwhole] at hstamped
        exact openBuffer_eq_ok.mpr ⟨rfl, hstamped.sealed.enveloped⟩
      exact ⟨⟨fun _ => hwhole, fun _ => ⟨_, hopen⟩⟩, fun hpart => absurd hwhole hpart,
        fun _ => hwhole⟩
    -- a part of it
    · obtain ⟨hno, hstatus⟩ := hstamped.torn (storeFile_starts hstore) hwhole true hash64
      refine ⟨⟨?_, fun heq => absurd heq hwhole⟩, fun _ => ⟨hno, hstatus⟩, ?_⟩
      · rintro ⟨r, hopen⟩
        cases hno.symm.trans hopen
      · rintro rfl
        exact absurd (Option.some.inj (storeFile_contents hstore)) hwhole

/-- The second `write` fails, with a part of the file on disk. -/
theorem stored_opens_iff_torn :
    ∃ w w' b, (Writer.create none).runs (.succeeding fun key => UInt64.ofNat key.length)
        [.setString (.data [0x61]) [0x61]] = some w ∧
      finalizeToFile (.succeeding fun key => UInt64.ofNat key.length) w
        ⟨true, [.wrote 170, .interrupted, .failed], true⟩ = some (false, some b.bytes, w') ∧
      openFile true true (some b) = .no ∧
      (verifyFile (fun _ => 0) true (some b) = .ok .tooSmall ∨
        verifyFile (fun _ => 0) true (some b) = .ok .badFileSize) := by
  obtain ⟨w, hrun, hclosed, hworkers⟩ : ∃ w, (Writer.create none).runs
      (.succeeding fun key => UInt64.ofNat key.length) [.setString (.data [0x61]) [0x61]] =
        some w ∧ w.currentScope = none ∧ WorkersFit w.options.workerCount :=
    ⟨_, rfl, rfl, by decide⟩
  obtain ⟨document, hb, hwritten⟩ := runs_written hrun hclosed
  cases hb
  obtain ⟨whole, w', hreturned, hwhole⟩ :=
    (hwritten (by decide +kernel)).returned (Env.succeeding_succeeds _) hworkers
  have hlength : whole.bytes.length = 204 := by
    rw [hwhole]
    decide +kernel
  have hpart : (whole.bytes.take 170).length = 170 := by
    rw [List.length_take, hlength]
    rfl
  have hstore : finalizeToFile (.succeeding fun key => UInt64.ofNat key.length) w
      ⟨true, [.wrote 170, .interrupted, .failed], true⟩ =
        some (false, some (whole.bytes.take 170), w') := by
    rw [finalizeToFile, hreturned]
    simp [storeFile, writeAll, hlength]
  obtain ⟨-, hrefused, -⟩ := stored_opens_iff
    (b := ⟨whole.bytes.take 170, by rw [hpart]; omega⟩) hstore (fun _ => 0)
  have hno : ¬∃ v, finalizeToBuffer (.succeeding fun key => UInt64.ofNat key.length) w =
      .returned (whole.bytes.take 170) v := by
    rintro ⟨v, hall⟩
    have hsame := (Finalized.returned.inj (hreturned.symm.trans hall)).1
    rw [← hsame] at hpart
    omega
  obtain ⟨hopen, hstatus⟩ := hrefused hno
  exact ⟨w, w', _, hrun, hstore, hopen, hstatus⟩

end Hrbl
