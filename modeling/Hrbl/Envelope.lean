import Hrbl.Tiling

/-!
# The envelope

The header and the footer of a file, which the reader and the verifier each check with code
of their own. `Enveloped` is what both accept: opening is this check and no more, and the
verifier goes on to the payload after it.
-/

namespace Hrbl

open Lib Lib.Outcome

/-- The envelope of the buffer is in order, and this is its header. -/
structure Enveloped (b : Buffer) (header : Header) : Prop where
  size_le : 160 ≤ b.bytes.length
  header_eq : loadHeader b 0 = .ok header
  layout : header.LayoutAccepted b.size
  footer : ∃ footer, loadFooter b header.footerOffset = .ok footer ∧
    footer.magicEnd = magicNumber ∧ footer.fileSize = header.fileSize ∧
    footer.checksumXxh3 = header.checksumXxh3

/-! ## Loads of the envelope -/

theorem size_lt_iff {b : Buffer} : b.size < headerSize + footerSize ↔ b.bytes.length < 160 := by
  rw [UInt64.lt_iff_toNat_lt, Buffer.toNat_size]
  rfl

theorem load_ok_of_le {b : Buffer} {offset : UInt64} {n : Nat}
    (h : offset.toNat + n ≤ b.bytes.length) :
    load b offset n = .ok ((b.bytes.drop offset.toNat).take n) := by
  rw [load, (fetch_eq_some.mpr ⟨h, rfl⟩ : fetch b.bytes offset.toNat n = some _)]

theorem loadHeader_ok {b : Buffer} (h : 160 ≤ b.bytes.length) :
    loadHeader b 0 = .ok (Header.decode (b.bytes.take 128)) := by
  have hzero : (0 : UInt64).toNat = 0 := rfl
  rw [loadHeader, load_ok_of_le (by rw [hzero]; omega), hzero, List.drop_zero]
  rfl

theorem Header.LayoutAccepted.footer_toNat {header : Header} {b : Buffer}
    (h : header.LayoutAccepted b.size) (hsize : 160 ≤ b.bytes.length) :
    header.footerOffset.toNat + 32 = b.bytes.length := by
  have hle : (160 : UInt64) ≤ b.size := by
    rw [UInt64.le_iff_toNat_le, Buffer.toNat_size]
    exact hsize
  have hend := (h.toNat hle).2.2.2.2
  rwa [Buffer.toNat_size] at hend

theorem loadFooter_ok {header : Header} {b : Buffer} (h : header.LayoutAccepted b.size)
    (hsize : 160 ≤ b.bytes.length) : loadFooter b header.footerOffset =
      .ok (Footer.decode ((b.bytes.drop header.footerOffset.toNat).take 32)) := by
  rw [loadFooter, load_ok_of_le (h.footer_toNat hsize).le]
  rfl

/-! ## Files -/

theorem Footer.decode_of_hasAt {raw : List UInt8} {f : Footer} (hat : HasAt raw 0 f.encode) :
    (Footer.decode raw).checksumXxh3 = f.checksumXxh3 ∧
      (Footer.decode raw).fileSize = f.fileSize ∧ (Footer.decode raw).magicEnd = f.magicEnd := by
  unfold Footer.encode at hat
  simp only [hasAt_append, length_le32, length_le64, List.length_append, Nat.zero_add,
    Nat.reduceAdd] at hat
  obtain ⟨⟨⟨h0, h8⟩, h16⟩, -⟩ := hat
  exact ⟨u64At_of_hasAt h0, u64At_of_hasAt h8, u32At_of_hasAt h16⟩

/-- The buffer is a header, a payload and a footer that repeats what the header says. -/
structure Sealed (b : Buffer) (header : Header) (payload : List UInt8) : Prop where
  layout : header.LayoutAccepted b.size
  bytes_eq : ∃ footer : Footer, b.bytes = header.encode ++ payload ++ footer.encode ∧
    footer.magicEnd = magicNumber ∧ footer.fileSize = header.fileSize ∧
    footer.checksumXxh3 = header.checksumXxh3

theorem Sealed.length_eq {b : Buffer} {header : Header} {payload : List UInt8}
    (h : Sealed b header payload) : b.bytes.length = 128 + payload.length + 32 := by
  obtain ⟨footer, hbytes, -⟩ := h.bytes_eq
  rw [hbytes, List.length_append, List.length_append, Header.length_encode, Footer.length_encode]

theorem Sealed.hasAt {b : Buffer} {header : Header} {payload : List UInt8}
    (h : Sealed b header payload) : HasAt b.bytes 128 payload := by
  obtain ⟨footer, hbytes, -⟩ := h.bytes_eq
  rw [hbytes, ← header.length_encode]
  exact HasAt.intro _ _ _

theorem Sealed.footerOffset {b : Buffer} {header : Header} {payload : List UInt8}
    (h : Sealed b header payload) : header.footerOffset.toNat = 128 + payload.length := by
  have hlen := h.length_eq
  have hend := h.layout.footer_toNat (by omega)
  omega

/-- The envelope of such a buffer is in order. -/
theorem Sealed.enveloped {b : Buffer} {header : Header} {payload : List UInt8}
    (h : Sealed b header payload) : Enveloped b header := by
  have hlen := h.length_eq
  have hplace := h.footerOffset
  obtain ⟨footer, hbytes, hmagic, hfile, hsum⟩ := h.bytes_eq
  refine ⟨by omega, ?_, h.layout, ?_⟩
  · have hheader : b.bytes.take 128 = header.encode := by
      rw [hbytes, List.append_assoc, ← header.length_encode, List.take_left]
    rw [loadHeader_ok (by omega), hheader, Header.decode_of_hasAt (HasAt.self _)]
  · have hfooter : (b.bytes.drop header.footerOffset.toNat).take 32 = footer.encode := by
      have hlength : (header.encode ++ payload).length = 128 + payload.length := by
        rw [List.length_append, Header.length_encode]
      rw [hplace, ← hlength, hbytes, List.drop_left, ← footer.length_encode, List.take_length]
    have hload := loadFooter_ok h.layout (by omega)
    rw [hfooter] at hload
    obtain ⟨hsum', hfile', hmagic'⟩ := Footer.decode_of_hasAt (HasAt.self footer.encode)
    exact ⟨_, hload, hmagic'.trans hmagic, hfile'.trans hfile, hsum'.trans hsum⟩

/-- The checksum is taken of the payload. -/
theorem Sealed.load_payload {b : Buffer} {header : Header} {payload : List UInt8}
    (h : Sealed b header payload) : load b header.rootIndexOffset
      (header.footerOffset - header.rootIndexOffset).toNat = .ok payload := by
  have hlen := h.length_eq
  have hplace := h.footerOffset
  have hstart : header.rootIndexOffset.toNat = 128 := congrArg UInt64.toNat h.layout.rootIndexOffset
  have hcount : (header.footerOffset - header.rootIndexOffset).toNat = payload.length := by
    rw [UInt64.toNat_sub_of_le _ _ (UInt64.le_iff_toNat_le.mpr (by omega))]
    omega
  exact load_of_hasAt (by rw [hstart]; exact h.hasAt) hcount.symm (by omega)

/-- There is a file of 160 bytes, with nothing between the header and the footer, for every header
that accepts that size. -/
theorem exists_bare_sealed {header : Header} (h : header.LayoutAccepted 160) :
    ∃ b : Buffer, b.size = 160 ∧ Sealed b header [] := by
  obtain ⟨footer, hmagic, hfile, hsum⟩ : ∃ footer : Footer, footer.magicEnd = magicNumber ∧
      footer.fileSize = header.fileSize ∧ footer.checksumXxh3 = header.checksumXxh3 :=
    ⟨⟨_, _, _, fun _ => 0⟩, rfl, rfl, rfl⟩
  have hlength : (header.encode ++ [] ++ footer.encode).length = 160 := by
    rw [List.append_nil, List.length_append, Header.length_encode, Footer.length_encode]
  obtain ⟨b, hbytes⟩ : ∃ b : Buffer, b.bytes = header.encode ++ [] ++ footer.encode :=
    ⟨⟨_, by rw [hlength]; decide⟩, rfl⟩
  have hsize : b.size = 160 := by
    rw [Buffer.size, hbytes, hlength]
    rfl
  refine ⟨b, hsize, ?_, footer, hbytes, hmagic, hfile, hsum⟩
  rw [hsize]
  exact h

/-- The wrapping header has such a file, with any checksum. -/
theorem exists_wrapping_sealed (checksum : UInt64) : ∃ b : Buffer,
    b.size = 160 ∧ Sealed b { wrappingHeader with checksumXxh3 := checksum } [] := by
  have hlayout : wrappingHeader.LayoutAccepted 160 := verifyHeaderLayout_eq_ok.mp (by decide)
  exact exists_bare_sealed { hlayout with }

/-! ## Opening -/

/-- Opening is the check of the envelope. -/
theorem openBuffer_eq_ok {b : Buffer} {r : Reader} :
    openBuffer true b = .ok r ↔ r.base = b ∧ Enveloped b r.header := by
  by_cases hsize : b.bytes.length < 160
  · rw [openBuffer, if_pos (size_lt_iff.mpr hsize)]
    exact ⟨fun h => (by cases h), fun h => absurd h.2.size_le (by omega)⟩
  · have hload := loadHeader_ok (b := b) (by omega)
    rw [openBuffer, if_neg (fun h => hsize (size_lt_iff.mp h)), hload, ok_bind]
    generalize Header.decode (b.bytes.take 128) = header at *
    by_cases hlayout : readerHeaderLayoutValid header b.size = true
    · have haccepted := readerHeaderLayoutValid_eq_true.mp hlayout
      have hfooter := loadFooter_ok haccepted (by omega)
      simp only [hlayout, Bool.not_true, Bool.false_eq_true, if_false, readerFooterMatches, hfooter,
        ok_bind]
      generalize Footer.decode ((b.bytes.drop header.footerOffset.toNat).take 32) = footer at *
      have henvelope : Enveloped b r.header ↔ r.header = header ∧
          footer.magicEnd = magicNumber ∧ footer.fileSize = header.fileSize ∧
          footer.checksumXxh3 = header.checksumXxh3 := by
        constructor
        · intro h
          have heq := h.header_eq
          rw [hload] at heq
          cases heq
          obtain ⟨footer', hf, hrest⟩ := h.footer
          rw [hfooter] at hf
          cases hf
          exact ⟨rfl, hrest⟩
        · rintro ⟨rfl, hrest⟩
          exact ⟨by omega, hload, haccepted, footer, hfooter, hrest⟩
      rw [henvelope]
      obtain ⟨base, header'⟩ := r
      by_cases hmagic : footer.magicEnd = magicNumber
      · by_cases hfile : footer.fileSize = header.fileSize
        · by_cases hsum : footer.checksumXxh3 = header.checksumXxh3
          · rw [if_neg (not_not.mpr hmagic), if_neg (not_not.mpr hfile),
              if_neg (not_not.mpr hsum), pure_eq, ok_bind, if_neg (by decide), Outcome.ok.injEq,
              Reader.mk.injEq]
            exact ⟨fun h => ⟨h.1.symm, h.2.symm, hmagic, hfile, hsum⟩,
              fun h => ⟨h.1.symm, h.2.1.symm⟩⟩
          · rw [if_neg (not_not.mpr hmagic), if_neg (not_not.mpr hfile), if_pos hsum]
            exact ⟨fun h => (by cases h), fun h => absurd h.2.2.2.2 hsum⟩
        · rw [if_neg (not_not.mpr hmagic), if_pos hfile]
          exact ⟨fun h => (by cases h), fun h => absurd h.2.2.2.1 hfile⟩
      · rw [if_pos hmagic]
        exact ⟨fun h => (by cases h), fun h => absurd h.2.2.1 hmagic⟩
    · have hfalse : readerHeaderLayoutValid header b.size = false := Bool.eq_false_iff.mpr hlayout
      simp only [hfalse, Bool.not_false, if_true]
      refine ⟨fun h => (by cases h), fun h => absurd ?_ hlayout⟩
      have heq := h.2.header_eq
      rw [hload] at heq
      cases heq
      exact readerHeaderLayoutValid_eq_true.mpr h.2.layout

/-! ## Verifying -/

/-- The statuses of the checks on the envelope. -/
def VerifyStatus.ofEnvelope : VerifyStatus → Bool
  | .tooSmall | .badMagic | .badVersion | .badFlags | .badFileSize | .badLayout
  | .badFooter => true
  | .ok | .badChecksum | .badRootIndex | .badNode | .badString | .badUtf8 | .duplicateKey
  | .io => false

/-- What is left of `verify_buffer` after the checks on the envelope. -/
def verifyPayload (hash64 : List UInt8 → UInt64) (b : Buffer) (header : Header) :
    Outcome VerifyStatus := do
  let payload ← load b header.rootIndexOffset
    (header.footerOffset - header.rootIndexOffset).toNat
  if hash64 payload ≠ header.checksumXxh3 then .ok .badChecksum
  else do
    let stringsStatus ← verifyStringsPool b header
    if stringsStatus ≠ .ok then .ok stringsStatus
    else verifyRootIndex b header

/-- A guard with such a status in front of others. -/
theorem guard_ofEnvelope {c : Prop} [Decidable c] {x y : VerifyStatus}
    (hx : x.ofEnvelope = true) (hy : y ≠ .ok → y.ofEnvelope = true) :
    (if c then x else y) ≠ .ok → (if c then x else y).ofEnvelope = true := by
  by_cases h : c
  · rw [if_pos h]
    exact fun _ => hx
  · rw [if_neg h]
    exact hy

theorem ofEnvelope_verifyHeaderLayout {header : Header} {size : UInt64} :
    verifyHeaderLayout header size ≠ .ok →
      (verifyHeaderLayout header size).ofEnvelope = true := by
  rw [verifyHeaderLayout]
  iterate 14 refine guard_ofEnvelope rfl ?_
  exact fun h => absurd rfl h

/-- The checks on the payload answer with statuses of their own. -/
theorem verifyUtf8Loop_status {data : List UInt8} {length index : Nat} {s : VerifyStatus}
    (h : verifyUtf8Loop data length index = .ok s) : s.ofEnvelope = false := by
  fun_induction verifyUtf8Loop data length index with
  | case1 _ _ _ _ ih => exact ih h
  | case2 => cases h; rfl
  | case3 => cases h
  | case4 => cases h; rfl

theorem verifyPadding_status {b : Buffer} {n : Nat} {at_ : UInt64} {s : VerifyStatus}
    (h : verifyPadding b at_ n = .ok s) : s.ofEnvelope = false := by
  induction n generalizing at_ with
  | zero => cases h; rfl
  | succ n ih =>
    rw [verifyPadding] at h
    obtain ⟨byte, -, h⟩ := bind_eq_ok.mp h
    split at h
    · cases h; rfl
    · exact ih h

theorem verifyRecord_status {b : Buffer} {header : Header} {pool offset : UInt64}
    {p : VerifyStatus × UInt64} (h : verifyRecord b header pool offset = .ok p) :
    p.1.ofEnvelope = false := by
  rw [verifyRecord] at h
  split at h
  · cases h; rfl
  · obtain ⟨length, -, h⟩ := bind_eq_ok.mp h
    dsimp only at h
    split at h
    · cases h; rfl
    · obtain ⟨utf8Status, hutf8, h⟩ := bind_eq_ok.mp h
      split at h
      · cases h
        exact verifyUtf8Loop_status hutf8
      · split at h
        · cases h; rfl
        · obtain ⟨padStatus, hpad, h⟩ := bind_eq_ok.mp h
          cases h
          exact verifyPadding_status hpad

theorem verifyStringsLoop_status {b : Buffer} {header : Header} {pool offset counted : UInt64}
    {s : VerifyStatus} (h : verifyStringsLoop b header pool offset counted = .ok s) :
    s.ofEnvelope = false := by
  fun_induction verifyStringsLoop b header pool offset counted with
  | case1 _ _ _ _ _ ih => exact ih h
  | case2 _ _ _ _ _ _ hrecord =>
    cases h
    exact verifyRecord_status hrecord
  | case3 => cases h
  | case4 => cases h
  | case5 => cases h; rfl
  | case6 => cases h; rfl
  | case7 => cases h; rfl

theorem verifyStringsPool_status {b : Buffer} {header : Header} {s : VerifyStatus}
    (h : verifyStringsPool b header = .ok s) : s.ofEnvelope = false := by
  rw [verifyStringsPool] at h
  split at h
  · split at h <;> cases h <;> rfl
  · exact verifyStringsLoop_status h

theorem verifyRootEntry_status (header : Header) (i previousHash : UInt64) (entry : Entry) :
    (verifyRootEntry header i previousHash entry).ofEnvelope = false := by
  unfold verifyRootEntry
  repeat' split
  all_goals rfl

theorem verifyRootLoop_status {b : Buffer} {header : Header} {i previousHash : UInt64}
    {s : VerifyStatus} (h : verifyRootLoop b header i previousHash = .ok s) :
    s.ofEnvelope = false := by
  fun_induction verifyRootLoop b header i previousHash with
  | case1 _ _ _ _ _ _ ih => exact ih h
  | case2 =>
    cases h
    exact verifyRootEntry_status ..
  | case3 => cases h
  | case4 => cases h
  | case5 => cases h; rfl

theorem verifyPayload_status {hash64 : List UInt8 → UInt64} {b : Buffer} {header : Header}
    {s : VerifyStatus} (h : verifyPayload hash64 b header = .ok s) : s.ofEnvelope = false := by
  rw [verifyPayload] at h
  obtain ⟨payload, -, h⟩ := bind_eq_ok.mp h
  split at h
  · cases h; rfl
  · obtain ⟨stringsStatus, hstrings, h⟩ := bind_eq_ok.mp h
    split at h
    · cases h
      exact verifyStringsPool_status hstrings
    · exact verifyRootLoop_status h

/-- With an envelope in order, the verifier goes on to the payload. -/
theorem verifyBuffer_of_enveloped {hash64 : List UInt8 → UInt64} {b : Buffer} {header : Header}
    (h : Enveloped b header) : verifyBuffer hash64 b = verifyPayload hash64 b header := by
  obtain ⟨footer, hfooter, hmagic, hfile, hsum⟩ := h.footer
  have hsize := h.size_le
  rw [verifyBuffer, if_neg (fun hlt => absurd (size_lt_iff.mp hlt) (by omega)), h.header_eq,
    ok_bind]
  simp only [verifyHeaderLayout_eq_ok.mpr h.layout, ne_eq, not_true_eq_false, if_false, hfooter,
    ok_bind]
  rw [if_neg (not_not.mpr hmagic), if_neg (not_not.mpr hfile), if_neg (not_not.mpr hsum)]
  rfl

/-- Without one, it says what is wrong with it. -/
theorem verifyBuffer_of_not_enveloped (hash64 : List UInt8 → UInt64) {b : Buffer}
    (h : ∀ header, ¬Enveloped b header) :
    ∃ s, verifyBuffer hash64 b = .ok s ∧ s.ofEnvelope = true := by
  by_cases hsize : b.bytes.length < 160
  · exact ⟨_, by rw [verifyBuffer, if_pos (size_lt_iff.mpr hsize)], rfl⟩
  · have hload := loadHeader_ok (b := b) (by omega)
    rw [verifyBuffer, if_neg (fun hlt => hsize (size_lt_iff.mp hlt)), hload, ok_bind]
    have henvelope := h (Header.decode (b.bytes.take 128))
    generalize Header.decode (b.bytes.take 128) = header at *
    by_cases hlayout : verifyHeaderLayout header b.size = .ok
    · have haccepted := verifyHeaderLayout_eq_ok.mp hlayout
      have hfooter := loadFooter_ok haccepted (by omega)
      simp only [hlayout, ne_eq, not_true_eq_false, if_false, hfooter, ok_bind]
      generalize Footer.decode ((b.bytes.drop header.footerOffset.toNat).take 32) = footer at *
      by_cases hmagic : footer.magicEnd = magicNumber
      · by_cases hfile : footer.fileSize = header.fileSize
        · by_cases hsum : footer.checksumXxh3 = header.checksumXxh3
          · exact absurd ⟨by omega, hload, haccepted, footer, hfooter, hmagic, hfile, hsum⟩
              henvelope
          · exact ⟨_, by rw [if_neg (not_not.mpr hmagic), if_neg (not_not.mpr hfile),
              if_pos hsum], rfl⟩
        · exact ⟨_, by rw [if_neg (not_not.mpr hmagic), if_pos hfile], rfl⟩
      · exact ⟨_, by rw [if_pos hmagic], rfl⟩
    · exact ⟨_, if_pos hlayout, ofEnvelope_verifyHeaderLayout hlayout⟩

/-! ## The two checks agree -/

/-- The reader opens what the verifier does not refuse for its envelope; so it opens every
file that verifies. -/
theorem openBuffer_iff_verifyBuffer (hash64 : List UInt8 → UInt64) (b : Buffer) :
    ((∃ r, openBuffer true b = .ok r) ↔
      ¬∃ s, verifyBuffer hash64 b = .ok s ∧
        s ∈ [.tooSmall, .badMagic, .badVersion, .badFlags, .badFileSize, .badLayout,
          .badFooter]) ∧
    (verifyBuffer hash64 b = .ok .ok → ∃ r, openBuffer true b = .ok r) := by
  have hmem : ∀ s : VerifyStatus, s ∈ [VerifyStatus.tooSmall, .badMagic, .badVersion, .badFlags,
      .badFileSize, .badLayout, .badFooter] ↔ s.ofEnvelope = true := by
    intro s
    cases s <;> decide
  have hopen : (∃ r, openBuffer true b = .ok r) ↔ ∃ header, Enveloped b header :=
    ⟨fun ⟨r, hr⟩ => ⟨r.header, (openBuffer_eq_ok.mp hr).2⟩,
      fun ⟨header, h⟩ => ⟨⟨b, header⟩, openBuffer_eq_ok.mpr ⟨rfl, h⟩⟩⟩
  simp only [hmem, hopen]
  by_cases h : ∃ header, Enveloped b header
  · refine ⟨iff_of_true h ?_, fun _ => h⟩
    obtain ⟨header, henvelope⟩ := h
    rintro ⟨s, hs, hs'⟩
    rw [verifyBuffer_of_enveloped henvelope] at hs
    rw [verifyPayload_status hs] at hs'
    cases hs'
  · obtain ⟨s, hs, hs'⟩ := verifyBuffer_of_not_enveloped hash64 (not_exists.mp h)
    refine ⟨iff_of_false h (not_not.mpr ⟨s, hs, hs'⟩), fun hok => ?_⟩
    rw [hs] at hok
    cases hok
    cases hs'

end Hrbl
