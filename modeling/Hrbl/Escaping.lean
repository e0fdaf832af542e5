import Hrbl.JsonExport

/-!
# JSON strings

What `bc_hrbl_export_write_json_string` makes of the bytes of a key or of a string. A string of
well-formed UTF-8 becomes a literal that is read back as these bytes. The decoder of the exporter
looks at the shape of a sequence only, so it takes more than the verifier does.
-/

namespace Hrbl

open Lib Lib.Outcome

variable {σ : Type}

/-! ## What is called -/

/-- The sink takes everything, and the padded formatter prints hexadecimal digits. -/
structure Core.Escapes (core : Core σ) (output : σ → Bytes) : Prop where
  writeBytes : ∀ data world, ∃ world', core.writeBytes data world = (true, world') ∧
    output world' = output world ++ data
  formatHexadecimal : ∀ value world, value.toNat < 2 ^ 16 → ∃ world',
    core.formatHexadecimal 6 value 4 world = (some (Json.hexDigits 4 value.toNat), world') ∧
      output world' = output world

/-- The same sink and hexadecimal formatter, where nothing else fails. -/
def Core.completed (core : Core σ) : Core σ where
  writeBytes := core.writeBytes
  allocate _ world := (true, world)
  formatSigned _ value world := (some (Json.decimalInt value.toInt), world)
  formatUnsigned _ value world := (some (Json.decimalNat value.toNat), world)
  formatHexadecimal := core.formatHexadecimal
  formatDouble _ _ world := (some [0x30], world)
  sortWithCompare := insertionSortWith

theorem Core.Escapes.completed_works {core : Core σ} {output : σ → Bytes}
    (h : core.Escapes output) : core.completed.Works output where
  writeBytes := h.writeBytes
  formatHexadecimal := h.formatHexadecimal
  allocate _ world := ⟨world, rfl, rfl⟩
  formatSigned _ world := ⟨world, rfl, rfl⟩
  formatUnsigned _ world := ⟨world, rfl, rfl⟩
  formatDouble _ world _ :=
    ⟨_, world, rfl, ⟨[], [0x30], [], [], rfl, .inl rfl, .inl rfl, .inl rfl, .inl rfl⟩, rfl⟩
  sortWithCompare := sorts_insertionSortWith

/-- A string is written through the sink and the hexadecimal formatter alone. -/
theorem jsonStringLoop_completed (core : Core σ) (options : Option ExportOptions) (data : Bytes)
    (length index : Nat) : jsonStringLoop core.completed options data length index =
      jsonStringLoop core options data length index := by
  have hpiece : ∀ piece, writePiece core.completed piece = writePiece core piece := by
    intro piece
    cases piece <;> rfl
  induction hleft : length - index using Nat.strong_induction_on generalizing index with
  | _ left ih =>
    rw [jsonStringLoop, jsonStringLoop]
    by_cases hindex : index < length
    · rw [if_pos hindex, if_pos hindex]
      split
      · rfl
      · rfl
      · rename_i piece consumed hok
        have hpos := jsonPiece_pos hok
        rw [hpiece, ih (length - (index + consumed)) (by omega) _ rfl]
    · rw [if_neg hindex, if_neg hindex]

theorem writeJsonString_completed (core : Core σ) (options : Option ExportOptions) (data : Bytes)
    (length : Nat) : writeJsonString core.completed options data length =
      writeJsonString core options data length := by
  rw [writeJsonString, writeJsonString, jsonStringLoop_completed]
  rfl

/-- A string of well-formed UTF-8 is written as a string literal for its characters. -/
theorem Core.Escapes.writeJsonString {core : Core σ} {output : σ → Bytes}
    (h : core.Escapes output) (options : Option ExportOptions) {s : Bytes} {chars : List Char}
    (hs : s = chars.flatMap String.utf8EncodeChar) :
    Writes output (writeJsonString core options s s.length) fun _ text =>
      Json.IsString text chars ∧ (asciiOnlyOf options = true → ∀ b ∈ text, b < 0x80) :=
  writeJsonString_completed core options s s.length ▸
    Writes.writeJsonString options h.completed_works hs

/-! ## Well-formed strings -/

/-- In a literal of ASCII, the characters above the basic plane are surrogate pairs. -/
theorem exists_pieces {body : Bytes} {chars : List Char} (h : Json.AreChars body chars) :
    ∃ pieces, body = pieces.flatten ∧ List.Forall₂ Json.IsChar pieces chars ∧
      ((∀ b ∈ body, b < 0x80) → ∀ p ∈ pieces.zip chars, 0xFFFF < p.2.toNat →
        Json.IsSurrogatePair p.1 p.2.toNat) := by
  obtain ⟨pieces, rfl, hpieces⟩ := Json.areChars_iff.mp h
  refine ⟨pieces, rfl, hpieces, fun hascii p hp hplane => ?_⟩
  obtain ⟨piece, c⟩ := p
  have hchar : Json.IsChar piece c := List.forall₂_zip hpieces hp
  refine hchar.isSurrogatePair (fun b hb => hascii b ?_) hplane
  exact List.mem_flatten.mpr ⟨piece, (List.of_mem_zip hp).1, hb⟩

/-- A string of well-formed UTF-8 is written as a literal that is decoded to its bytes; what
stands between the quotes is escaped, and with `ascii_only` it is ASCII, with surrogate pairs for
what is above the basic plane. -/
theorem writeJsonString_invertible {core : Core σ} {output : σ → Bytes}
    (hcore : core.Escapes output) (options : Option ExportOptions) {s : Bytes} (hs : IsUtf8 s) (state : ExportState σ)
    (hready : state.writeFailed = false) :
    ∃ state' text body chars pieces,
      writeJsonString core options s s.length state = .ok () state' ∧
      output state'.world = output state.world ++ text ∧
      Json.IsString text chars ∧ Json.decodeString text = some chars ∧
      chars.flatMap String.utf8EncodeChar = s ∧
      text = [0x22] ++ (body ++ [0x22]) ∧ Json.isEscaped body = true ∧
      body = pieces.flatten ∧ List.Forall₂ Json.IsChar pieces chars ∧
      (asciiOnlyOf options = true → (∀ b ∈ text, b < 0x80) ∧
        ∀ p ∈ pieces.zip chars, 0xFFFF < p.2.toNat → Json.IsSurrogatePair p.1 p.2.toNat) := by
  obtain ⟨chars, hchars⟩ := hs
  obtain ⟨_, text, state', hrun, -, houtput, hstring, hascii⟩ :=
    hcore.writeJsonString options hchars state hready
  have hdecode := hstring.decode
  obtain ⟨body, htext, hbody⟩ := id hstring
  obtain ⟨pieces, hflatten, hpieces, hpairs⟩ := exists_pieces hbody
  refine ⟨state', text, body, chars, pieces, hrun, houtput, hstring, hdecode, hchars.symm, htext,
    hbody.escaped, hflatten, hpieces, fun honly => ⟨hascii honly, hpairs fun b hb => ?_⟩⟩
  refine hascii honly b ?_
  rw [htext]
  exact List.mem_append_right _ (List.mem_append_left _ hb)

theorem plainCore_escapes : plainCore.Escapes id :=
  ⟨plainCore_works.writeBytes, plainCore_works.formatHexadecimal⟩

/-- A quote, a character of two bytes and one above the basic plane, in ASCII. -/
theorem writeJsonString_invertible_escapes :
    ∃ state' text body chars pieces,
      writeJsonString plainCore (some { indentSpaces := 0, sortKeys := false, asciiOnly := true })
        [0x22, 0xC3, 0xA9, 0xF0, 0x9F, 0x98, 0x80] 7 { world := [], writeFailed := false } =
          .ok () state' ∧
      id state'.world = id [] ++ text ∧
      Json.IsString text chars ∧ Json.decodeString text = some chars ∧
      chars.flatMap String.utf8EncodeChar = [0x22, 0xC3, 0xA9, 0xF0, 0x9F, 0x98, 0x80] ∧
      text = [0x22] ++ (body ++ [0x22]) ∧ Json.isEscaped body = true ∧
      body = pieces.flatten ∧ List.Forall₂ Json.IsChar pieces chars ∧
      (true = true → (∀ b ∈ text, b < 0x80) ∧
        ∀ p ∈ pieces.zip chars, 0xFFFF < p.2.toNat → Json.IsSurrogatePair p.1 p.2.toNat) :=
  writeJsonString_invertible plainCore_escapes
    (some { indentSpaces := 0, sortKeys := false, asciiOnly := true })
    ⟨['"', 'é', Char.ofNat 0x1F600], by decide⟩ { world := [], writeFailed := false } rfl

/-! ## Sequences -/

/-- One sequence, as both decoders take it apart: an ASCII byte, or a lead byte with as many
continuation bytes as it announces, and the number that they make up. -/
def IsSequence (q : Bytes) (v : Nat) : Prop :=
  (∃ byte, q = [byte] ∧ byte < 0x80 ∧ v = byte.toNat) ∨
    ∃ byte tails lead, q = byte :: tails ∧ ¬byte < 0x80 ∧
      utf8Lead byte = some (tails.length, lead) ∧ AreTails tails ∧ v = assembled lead.toNat tails

/-- The number has a shorter form, or it is a surrogate, or it is above all code points. -/
def IsImproper (q : Bytes) (v : Nat) : Prop :=
  q.length = 2 ∧ v < 0x80 ∨ q.length = 3 ∧ v < 0x800 ∨ q.length = 4 ∧ v < 0x10000 ∨
    0xD800 ≤ v ∧ v ≤ 0xDFFF ∨ 0x10FFFF < v

/-- The bytes are sequences, one behind the other. -/
def AreSequences (s : Bytes) : Prop :=
  ∃ qs : List Bytes, s = qs.flatten ∧ ∀ q ∈ qs, ∃ v, IsSequence q v

theorem IsSequence.length_pos {q : Bytes} {v : Nat} (h : IsSequence q v) : 0 < q.length := by
  rcases h with ⟨byte, rfl, -⟩ | ⟨byte, tails, lead, rfl, -⟩
  · exact Nat.one_pos
  · exact Nat.succ_pos _

/-- The first byte says where a sequence ends. -/
theorem IsSequence.prefix_free {q q' rest rest' : Bytes} {v v' : Nat} (h : IsSequence q v)
    (h' : IsSequence q' v') (heq : q ++ rest = q' ++ rest') : q = q' ∧ v = v' ∧ rest = rest' := by
  rcases h with ⟨byte, rfl, hlow, rfl⟩ | ⟨byte, tails, lead, rfl, hhigh, hlead, -, rfl⟩
  · rcases h' with ⟨byte', rfl, hlow', rfl⟩ | ⟨byte', tails', lead', rfl, hhigh', -⟩
    · cases heq
      exact ⟨rfl, rfl, rfl⟩
    · cases heq
      exact absurd hlow hhigh'
  · rcases h' with ⟨byte', rfl, hlow', rfl⟩ | ⟨byte', tails', lead', rfl, hhigh', hlead', -, rfl⟩
    · cases heq
      exact absurd hlow' hhigh
    · rw [List.cons_append, List.cons_append, List.cons.injEq] at heq
      obtain ⟨rfl, heq⟩ := heq
      rw [hlead, Option.some.injEq, Prod.mk.injEq] at hlead'
      obtain ⟨hlength, rfl⟩ := hlead'
      obtain ⟨rfl, rfl⟩ := List.append_inj heq hlength
      exact ⟨rfl, rfl, rfl⟩

theorem areSequences_nil : AreSequences [] := ⟨[], rfl, fun _ h => absurd h List.not_mem_nil⟩

/-- What follows the first sequence decides. -/
theorem areSequences_append {q rest : Bytes} {v : Nat} (h : IsSequence q v) :
    AreSequences (q ++ rest) ↔ AreSequences rest := by
  constructor
  · rintro ⟨qs, hflatten, hall⟩
    cases qs with
    | nil =>
      have hlength := congrArg List.length hflatten
      rw [List.length_append, List.flatten_nil, List.length_nil] at hlength
      have hpos := h.length_pos
      omega
    | cons q' qs =>
      rw [List.forall_mem_cons] at hall
      obtain ⟨⟨v', hq'⟩, hqs⟩ := hall
      rw [List.flatten_cons] at hflatten
      exact ⟨qs, (h.prefix_free hq' hflatten).2.2, hqs⟩
  · rintro ⟨qs, rfl, hall⟩
    exact ⟨q :: qs, rfl, List.forall_mem_cons.mpr ⟨⟨v, h⟩, hall⟩⟩

/-- A sequence is the shortest form of a scalar value, or it is improper. -/
theorem IsSequence.proper_iff {q : Bytes} {v : Nat} (h : IsSequence q v) :
    ¬IsImproper q v ↔ ∃ c : Char, q = String.utf8EncodeChar c := by
  rcases h with ⟨byte, rfl, hlow, rfl⟩ | ⟨byte, tails, lead, rfl, hhigh, hlead, htails, rfl⟩
  · have hlt : byte.toNat < 0x80 := UInt8.lt_iff_toNat_lt.mp hlow
    obtain ⟨c, hc⟩ := exists_char (v := byte.toNat) (.inl (by omega))
    refine iff_of_true ?_ ⟨c, ?_⟩
    · simp only [IsImproper, List.length_singleton]
      omega
    · rw [utf8EncodeChar_eq hc, if_pos hlt, UInt8.ofNat_toNat]
  · -- the verifier takes exactly the proper ones
    have hbounds := utf8Lead_eq_some hlead
    have hpasses : verifyUtf8Sequence (byte :: tails) (tails.length + 1) = .ok tails.length ↔ _ :=
      verifyUtf8Sequence_eq_ok hhigh hlead le_rfl
    rw [List.take_length] at hpasses
    have hlt := assembled_lt lead.toNat tails
    -- of two bytes the first alone decides, by its lowest bits
    have hshort : tails.length = 1 →
        (assembled lead.toNat tails < 0x80 ↔ ¬2 ≤ lead.toNat) := by
      intro hone
      obtain ⟨t, rfl⟩ := List.length_eq_one_iff.mp hone
      simp only [assembled, List.foldl]
      omega
    have hproper : ¬IsImproper (byte :: tails) (assembled lead.toNat tails) ↔
        verifyUtf8Sequence (byte :: tails) (tails.length + 1) = .ok tails.length := by
      rw [hpasses, IsImproper, List.length_cons]
      simp only [htails, true_and]
      rcases hbounds with ⟨hk, -, hmax, hmin⟩ | ⟨hk, -, hmax, hmin⟩ | ⟨hk, -, hmax, hmin⟩
      · have := hshort hk
        rw [hk] at hlt
        norm_num [hk]
        omega
      · rw [hk] at hlt
        norm_num [hk]
        omega
      · rw [hk] at hlt
        norm_num [hk]
        omega
    rw [hproper]
    constructor
    · intro hok
      obtain ⟨-, c, hc⟩ := utf8_sound (Nat.succ_pos _) le_rfl hok
      refine ⟨c, ?_⟩
      rw [hc, List.take_succ_cons, List.take_length]
    · rintro ⟨c, hc⟩
      have hroom : (String.utf8EncodeChar c).length ≤ tails.length + 1 := by
        rw [← hc, List.length_cons]
      have hwhole : tails.length + 1 ≤ (String.utf8EncodeChar c ++ []).length := by
        rw [← hc, List.append_nil, List.length_cons]
      obtain ⟨n, hn, hok⟩ := utf8_complete c hroom hwhole
      rw [← hc, List.append_nil] at hok
      rw [← hc, List.length_cons] at hn
      rw [hok, Nat.succ_injective hn]

/-- Well-formed strings are those whose sequences are all proper. -/
theorem isUtf8_iff_proper {s : Bytes} : IsUtf8 s ↔
    ∃ qs : List Bytes, s = qs.flatten ∧ ∀ q ∈ qs, ∃ v, IsSequence q v ∧ ¬IsImproper q v := by
  have hencoding : ∀ c : Char, ∃ v, IsSequence (String.utf8EncodeChar c) v := by
    intro c
    by_cases hascii : c.toNat < 0x80
    · have hbyte := toNat_ofNat_byte (show c.toNat < 256 by omega)
      refine ⟨c.toNat, .inl ⟨UInt8.ofNat c.toNat, ?_, ?_, hbyte.symm⟩⟩
      · rw [utf8EncodeChar_eq rfl, if_pos hascii]
      · rw [UInt8.lt_iff_toNat_lt, hbyte]
        exact hascii
    · obtain ⟨byte, tails, lead, hform⟩ := exists_longForm hascii
      exact ⟨_, .inr ⟨byte, tails, lead, hform.encoding, hform.high, hform.announces,
        hform.areTails, rfl⟩⟩
  constructor
  · rintro ⟨chars, rfl⟩
    refine ⟨chars.map String.utf8EncodeChar, List.flatMap_def, fun q hq => ?_⟩
    obtain ⟨c, -, rfl⟩ := List.mem_map.mp hq
    obtain ⟨v, hv⟩ := hencoding c
    exact ⟨v, hv, hv.proper_iff.mpr ⟨c, rfl⟩⟩
  · rintro ⟨qs, rfl, hall⟩
    induction qs with
    | nil => exact isUtf8_nil
    | cons q qs ih =>
      rw [List.forall_mem_cons] at hall
      obtain ⟨⟨v, hq, hproper⟩, hqs⟩ := hall
      obtain ⟨c, rfl⟩ := hq.proper_iff.mp hproper
      obtain ⟨chars, hchars⟩ := ih hqs
      refine ⟨c :: chars, ?_⟩
      rw [List.flatten_cons, List.flatMap_cons, hchars]

/-- The bytes are sequences in one way only. -/
theorem flatten_sequences_inj {qs qs' : List Bytes} (h : ∀ q ∈ qs, ∃ v, IsSequence q v)
    (h' : ∀ q ∈ qs', ∃ v, IsSequence q v) (heq : qs.flatten = qs'.flatten) : qs = qs' := by
  have hnil : ∀ {q : Bytes} {rest : Bytes} {v}, IsSequence q v → q ++ rest ≠ [] := by
    intro q rest v hq hnil
    have hpos := hq.length_pos
    rw [(List.append_eq_nil_iff.mp hnil).1] at hpos
    exact absurd hpos (Nat.lt_irrefl 0)
  induction qs generalizing qs' with
  | nil =>
    cases qs' with
    | nil => rfl
    | cons q' qs' =>
      obtain ⟨v', hq'⟩ := (List.forall_mem_cons.mp h').1
      exact absurd heq.symm (hnil hq')
  | cons q qs ih =>
    obtain ⟨⟨v, hq⟩, hqs⟩ := List.forall_mem_cons.mp h
    cases qs' with
    | nil => exact absurd heq (hnil hq)
    | cons q' qs' =>
      obtain ⟨⟨v', hq'⟩, hqs'⟩ := List.forall_mem_cons.mp h'
      rw [List.flatten_cons, List.flatten_cons] at heq
      obtain ⟨rfl, -, hrest⟩ := hq.prefix_free hq' heq
      rw [ih hqs hqs' hrest]

/-! ## The decoder of the exporter -/

/-- The decoder takes a sequence, and refuses what does not start with one. -/
theorem exportUtf8Decode_cases {data : Bytes} (hne : data ≠ []) :
    (∃ q rest codepoint, data = q ++ rest ∧ IsSequence q codepoint.toNat ∧
      exportUtf8Decode data data.length = .ok (codepoint, q.length)) ∨
    (¬∃ q rest v, data = q ++ rest ∧ IsSequence q v) ∧
      exportUtf8Decode data data.length = .no := by
  obtain ⟨byte, rest, rfl⟩ := List.exists_cons_of_ne_nil hne
  by_cases hlow : byte < 0x80
  · refine .inl ⟨[byte], rest, byte.toUInt32, rfl, .inl ⟨byte, rfl, hlow,
      UInt8.toNat_toUInt32 byte⟩, ?_⟩
    rw [exportUtf8Decode, if_pos hlow]
    rfl
  · -- a sequence at the start has this lead byte
    have hstart : (∃ q after v, byte :: rest = q ++ after ∧ IsSequence q v) →
        ∃ k lead, utf8Lead byte = some (k, lead) ∧ k ≤ rest.length ∧ AreTails (rest.take k) := by
      rintro ⟨q, after, v, heq, ⟨byte', rfl, hlow', -⟩ |
        ⟨byte', tails, lead, rfl, -, hlead, htails, -⟩⟩
      · cases heq
        exact absurd hlow' hlow
      · rw [List.cons_append, List.cons.injEq] at heq
        obtain ⟨rfl, rfl⟩ := heq
        refine ⟨tails.length, lead, hlead, ?_, ?_⟩
        · rw [List.length_append]
          exact Nat.le_add_right _ _
        · rwa [List.take_left]
    rw [exportUtf8Decode, if_neg hlow]
    cases hlead : utf8Lead byte with
    | none =>
      refine .inr ⟨fun h => ?_, rfl⟩
      obtain ⟨k, lead, hsome, -⟩ := hstart h
      cases hlead.symm.trans hsome
    | some p =>
      obtain ⟨k, lead⟩ := p
      have hbounds := utf8Lead_eq_some hlead
      -- no continuation byte is shifted out
      have hfits : (lead.toNat + 1) * 64 ^ k ≤ 2 ^ 32 :=
        (Nat.mul_le_mul (show lead.toNat + 1 ≤ 32 by omega)
          (Nat.pow_le_pow_right (by omega) (show k ≤ 3 by omega))).trans (by decide)
      have hkept : (∃ q after v, byte :: rest = q ++ after ∧ IsSequence q v) →
          k ≤ rest.length ∧ AreTails (rest.take k) := by
        intro h
        obtain ⟨k', lead', hsome, hlength, htails⟩ := hstart h
        cases hlead.symm.trans hsome
        exact ⟨hlength, htails⟩
      dsimp only
      rw [List.length_cons]
      by_cases hroom : k + 1 > rest.length + 1
      · rw [if_pos hroom]
        exact .inr ⟨fun h => absurd (hkept h).1 (by omega), rfl⟩
      · rw [if_neg hroom, utf8Continuation_eq (by omega) hfits]
        by_cases htails : AreTails (rest.take k)
        · have hlength : (rest.take k).length = k := by
            rw [List.length_take]
            omega
          have hlt := assembled_lt lead.toNat (rest.take k)
          rw [hlength] at hlt
          have hvalue : (UInt32.ofNat (assembled lead.toNat (rest.take k))).toNat =
              assembled lead.toNat (rest.take k) := by
            rw [UInt32.toNat_ofNat']
            exact Nat.mod_eq_of_lt (hlt.trans_le hfits)
          rw [if_pos htails]
          refine .inl ⟨byte :: rest.take k, rest.drop k, _, ?_, .inr ⟨byte, rest.take k, lead, rfl,
            hlow, ?_, htails, hvalue⟩, ?_⟩
          · rw [List.cons_append, List.take_append_drop]
          · rw [hlength]
            exact hlead
          · rw [List.length_cons, hlength]
        · rw [if_neg htails]
          exact .inr ⟨fun h => htails (hkept h).2, rfl⟩

/-- Its escapes are of 16 bits. -/
def JsonPiece.Fits : JsonPiece → Prop
  | .bytes _ => True
  | .escape codepoint => codepoint.toNat < 2 ^ 16
  | .surrogates high low => high.toNat < 2 ^ 16 ∧ low.toNat < 2 ^ 16

/-- The numbers of sequences have 21 bits. -/
theorem IsSequence.lt {q : Bytes} {v : Nat} (h : IsSequence q v) : v < 2 ^ 21 := by
  rcases h with ⟨byte, rfl, -, rfl⟩ | ⟨byte, tails, lead, rfl, -, hlead, -, rfl⟩
  · have hbyte := byte.toNat_lt
    omega
  · have hlt := assembled_lt lead.toNat tails
    rcases utf8Lead_eq_some hlead with ⟨hk, -, hmax, hmin⟩ | ⟨hk, -, hmax, hmin⟩ |
      ⟨hk, -, hmax, hmin⟩
    · rw [hk] at hlt
      omega
    · rw [hk] at hlt
      omega
    · rw [hk] at hlt
      omega

/-- A turn takes a sequence and writes something, or what is left does not start with one. -/
theorem jsonPiece_cases (asciiOnly : Bool) {data : Bytes} (hne : data ≠ []) :
    (∃ q rest v piece, data = q ++ rest ∧ IsSequence q v ∧
      jsonPiece asciiOnly data data.length = .ok (piece, q.length) ∧ piece.Fits) ∨
    (¬∃ q rest v, data = q ++ rest ∧ IsSequence q v) ∧
      jsonPiece asciiOnly data data.length = .no := by
  obtain ⟨byte, rest, rfl⟩ := List.exists_cons_of_ne_nil hne
  have hsingle : byte < 0x80 → IsSequence [byte] byte.toNat := fun hlow =>
    .inl ⟨byte, rfl, hlow, rfl⟩
  rw [jsonPiece]
  cases hreplacement : jsonReplacement byte with
  | some replacement =>
    have hlow : byte < 0x80 := by
      by_contra hhigh
      rw [jsonReplacement_high hhigh] at hreplacement
      cases hreplacement
    exact .inl ⟨[byte], rest, _, _, rfl, hsingle hlow, rfl, trivial⟩
  | none =>
    dsimp only
    by_cases hcontrol : byte < 0x20
    · have hbyte := byte.toNat_lt
      rw [if_pos hcontrol]
      refine .inl ⟨[byte], rest, _, _, rfl, hsingle (UInt8.lt_trans hcontrol (by decide)), rfl, ?_⟩
      rw [JsonPiece.Fits, UInt8.toNat_toUInt32]
      omega
    · rw [if_neg hcontrol]
      by_cases hlow : byte < 0x80
      · rw [if_pos hlow]
        exact .inl ⟨[byte], rest, _, _, rfl, hsingle hlow, rfl, trivial⟩
      · rw [if_neg hlow]
        rcases exportUtf8Decode_cases hne with ⟨q, after, codepoint, heq, hq, hok⟩ | ⟨hnot, hno⟩
        · have hlt := hq.lt
          rw [hok]
          dsimp only
          -- as it is, as one escape, or as two
          cases asciiOnly with
          | false => exact .inl ⟨q, after, _, _, heq, hq, rfl, trivial⟩
          | true =>
            rw [if_neg (by decide)]
            by_cases hplane : codepoint ≤ 0xFFFF
            · have hle : codepoint.toNat ≤ 0xFFFF := UInt32.le_iff_toNat_le.mp hplane
              rw [if_pos hplane]
              exact .inl ⟨q, after, _, _, heq, hq, rfl, Nat.lt_succ_of_le hle⟩
            · have hhigh : 0x10000 ≤ codepoint.toNat :=
                Nat.succ_le_of_lt (Nat.not_le.mp fun h => hplane (UInt32.le_iff_toNat_le.mpr h))
              obtain ⟨hfirst, hsecond⟩ := toNat_surrogates hhigh hlt
              rw [if_neg hplane]
              refine .inl ⟨q, after, _, _, heq, hq, rfl, ?_, ?_⟩
              · rw [hfirst]
                omega
              · rw [hsecond]
                omega
        · rw [hno]
          exact .inr ⟨hnot, rfl⟩

/-! ## The loop -/

section

variable {core : Core σ} {output : σ → Bytes}

theorem Core.Escapes.writePiece (h : core.Escapes output) {piece : JsonPiece}
    (hfits : piece.Fits) : Writes output (writePiece core piece) fun _ _ => True := by
  have hworks := h.completed_works
  cases piece with
  | bytes raw => exact (Writes.exportWriteAll h.writeBytes raw).mono fun _ _ _ => trivial
  | escape codepoint => exact (Writes.hexEscape hworks hfits).mono fun _ _ _ => trivial
  | surrogates high low =>
    exact (Writes.hexEscape hworks hfits.1).bind fun _ _ _ =>
      (Writes.hexEscape hworks hfits.2).mono fun _ _ _ => trivial

theorem jsonStringLoop_ok {options : Option ExportOptions} {data : Bytes}
    {length index consumed : Nat} {piece : JsonPiece} (hindex : index < length)
    (hok : jsonPiece (asciiOnlyOf options) (data.drop index) (length - index) =
      .ok (piece, consumed)) : jsonStringLoop core options data length index = (do
        writePiece core piece
        jsonStringLoop core options data length (index + consumed)) := by
  rw [jsonStringLoop, if_pos hindex]
  split
  · rename_i hno
    cases hno.symm.trans hok
  · rename_i hfault
    cases hfault.symm.trans hok
  · rename_i hok'
    cases hok'.symm.trans hok
    rfl

theorem jsonStringLoop_no {options : Option ExportOptions} {data : Bytes} {length index : Nat}
    (hindex : index < length)
    (hno : jsonPiece (asciiOnlyOf options) (data.drop index) (length - index) = .no) :
    jsonStringLoop core options data length index = fail := by
  rw [jsonStringLoop, if_pos hindex]
  split
  · rfl
  · rename_i hfault
    cases hfault.symm.trans hno
  · rename_i hok
    cases hok.symm.trans hno

/-- From any index on, the loop returns when sequences are left, and it fails otherwise. -/
theorem jsonStringLoop_cases (h : core.Escapes output) (options : Option ExportOptions)
    {s : Bytes} {index : Nat} (hindex : index ≤ s.length) (state : ExportState σ)
    (hready : state.writeFailed = false) :
    (AreSequences (s.drop index) ∧ ∃ state',
      jsonStringLoop core options s s.length index state = .ok () state' ∧
      state'.writeFailed = false) ∨
    ¬AreSequences (s.drop index) ∧ ∃ state',
      jsonStringLoop core options s s.length index state = .error .failed state' := by
  induction hleft : s.length - index using Nat.strong_induction_on generalizing index state with
  | _ left ih =>
    have hlength : (s.drop index).length = s.length - index := List.length_drop
    by_cases hlt : index < s.length
    · have hne : s.drop index ≠ [] := by
        intro hnil
        rw [hnil, List.length_nil] at hlength
        omega
      have hpieces := jsonPiece_cases (asciiOnlyOf options) hne
      rw [hlength] at hpieces
      rcases hpieces with ⟨q, rest, v, piece, heq, hq, hok, hfits⟩ | ⟨hnot, hno⟩
      · -- the sequence is written, and the loop goes on behind it
        obtain ⟨_, _, state₁, hwrite, hready₁, -⟩ := h.writePiece hfits state hready
        have hpos := hq.length_pos
        have hwhole := congrArg List.length heq
        rw [hlength, List.length_append] at hwhole
        have hdrop : s.drop (index + q.length) = rest := by
          rw [← List.drop_drop, heq, List.drop_left]
        have hrest := ih (s.length - (index + q.length)) (by omega)
          (show index + q.length ≤ s.length by omega) state₁ hready₁ rfl
        rw [hdrop, ← areSequences_append hq, ← heq] at hrest
        have hstep : jsonStringLoop core options s s.length index state =
            jsonStringLoop core options s s.length (index + q.length) state₁ := by
          rw [jsonStringLoop_ok hlt hok]
          change EStateM.bind _ _ state = _
          rw [EStateM.bind, hwrite]
        rw [hstep]
        exact hrest
      · have hbad : ¬AreSequences (s.drop index) := by
          rintro ⟨qs, hflatten, hall⟩
          cases qs with
          | nil => exact hne hflatten
          | cons q qs =>
            obtain ⟨v, hq⟩ := (List.forall_mem_cons.mp hall).1
            exact hnot ⟨q, qs.flatten, v, hflatten, hq⟩
        refine .inr ⟨hbad, { state with writeFailed := true }, ?_⟩
        rw [jsonStringLoop_no hlt hno]
        rfl
    · have hnil : s.drop index = [] := List.drop_eq_nil_of_le (Nat.not_lt.mp hlt)
      rw [jsonStringLoop, if_neg hlt, hnil]
      exact .inl ⟨areSequences_nil, state, rfl, hready⟩

/-- A string is written if and only if its bytes are sequences. -/
theorem writeJsonString_ok_iff (h : core.Escapes output) (options : Option ExportOptions)
    (s : Bytes) (state : ExportState σ) (hready : state.writeFailed = false) :
    (∃ state', writeJsonString core options s s.length state = .ok () state') ↔
      AreSequences s := by
  have hquote : ∀ st : ExportState σ, st.writeFailed = false → ∃ st',
      exportWriteAll core [0x22] st = .ok () st' ∧ st'.writeFailed = false := by
    intro st hst
    obtain ⟨_, _, st', hrun, hst', -⟩ := Writes.exportWriteAll h.writeBytes [0x22] st hst
    exact ⟨st', hrun, hst'⟩
  obtain ⟨state₁, hopen, hready₁⟩ := hquote state hready
  have hbind : writeJsonString core options s s.length state =
      EStateM.bind (jsonStringLoop core options s s.length 0)
        (fun _ => exportWriteAll core [0x22]) state₁ := by
    change EStateM.bind _ _ state = _
    rw [EStateM.bind, hopen]
    rfl
  rw [hbind, EStateM.bind]
  rcases jsonStringLoop_cases h options (Nat.zero_le s.length) state₁ hready₁ with
    ⟨hsequences, state₂, hloop, hready₂⟩ | ⟨hnot, state₂, hloop⟩
  · obtain ⟨state₃, hclose, -⟩ := hquote state₂ hready₂
    rw [hloop]
    exact iff_of_true ⟨state₃, hclose⟩ hsequences
  · rw [hloop]
    exact iff_of_false (fun ⟨_, hok⟩ => by cases hok) hnot

/-! ## Two decoders -/

theorem IsUtf8.append {text rest : Bytes} (h : IsUtf8 text) (hrest : IsUtf8 rest) :
    IsUtf8 (text ++ rest) := by
  obtain ⟨chars, rfl⟩ := h
  obtain ⟨more, rfl⟩ := hrest
  exact ⟨chars ++ more, List.flatMap_append.symm⟩

/-- A string literal is well-formed UTF-8. -/
theorem isUtf8_of_isString {text : Bytes} {chars : List Char} (h : Json.IsString text chars) :
    IsUtf8 text := by
  have hplain : ∀ {bytes : Bytes}, (∀ b ∈ bytes, b < 0x80) → IsUtf8 bytes := isUtf8_of_ascii
  have hescape : ∀ {quad n}, Json.IsHexQuad quad n → IsUtf8 ((0x5C : UInt8) :: 0x75 :: quad) := by
    intro quad n hquad
    refine hplain ?_
    rw [List.forall_mem_cons, List.forall_mem_cons]
    exact ⟨by decide, by decide, fun b hb => (hquad.plain b hb).1⟩
  have hquote : IsUtf8 [0x22] := ⟨['"'], by decide⟩
  have hchar : ∀ {piece c}, Json.IsChar piece c → IsUtf8 piece := by
    intro piece c hpiece
    cases hpiece with
    | unescaped c => exact ⟨[c], (List.append_nil _).symm⟩
    | escape letter c hmem =>
      have hletters : ∀ p ∈ Json.escapes, ∀ b ∈ [0x5C, p.1], b < 0x80 := by decide +kernel
      exact hplain (hletters _ hmem)
    | unicode quad c hquad => exact hescape hquad
    | surrogates high low h l c hhigh hlow => exact (hescape hhigh).append (hescape hlow)
  obtain ⟨body, rfl, hbody⟩ := h
  refine hquote.append (IsUtf8.append ?_ hquote)
  induction hbody with
  | nil => exact isUtf8_nil
  | cons hfirst _ ih => exact (hchar hfirst).append ih

/-- From this state, the exporter writes the string if and only if the verifier accepts it, and
what it writes is a string literal of well-formed UTF-8. -/
def AgreesOnUtf8 (core : Core σ) (output : σ → Bytes) (options : Option ExportOptions) (s : Bytes)
    (state : ExportState σ) : Prop :=
  ((∃ state', writeJsonString core options s s.length state = .ok () state') ↔
    verifyUtf8Length s s.length = .ok .ok) ∧
  ∀ state', writeJsonString core options s s.length state = .ok () state' →
    ∃ text chars, output state'.world = output state.world ++ text ∧ IsUtf8 text ∧
      Json.IsString text chars

/-- They agree on all strings but those whose bytes are sequences of which one is overlong, a
surrogate or above all code points. -/
theorem agreesOnUtf8_iff (h : core.Escapes output) (options : Option ExportOptions) (s : Bytes)
    (state : ExportState σ) (hready : state.writeFailed = false) :
    AgreesOnUtf8 core output options s state ↔
      ¬∃ qs : List Bytes, s = qs.flatten ∧ (∀ q ∈ qs, ∃ v, IsSequence q v) ∧
        ∃ q ∈ qs, ∃ v, IsSequence q v ∧ IsImproper q v := by
  have hwrites := writeJsonString_ok_iff h options s state hready
  rw [AgreesOnUtf8, hwrites, verifyUtf8Length_iff]
  constructor
  · rintro ⟨hagree, -⟩ ⟨qs, hflatten, hall, q, hq, v, hv, himproper⟩
    obtain ⟨qs', hflatten', hproper⟩ := isUtf8_iff_proper.mp (hagree.mp ⟨qs, hflatten, hall⟩)
    -- the same sequences are all proper
    have hsame : qs = qs' := flatten_sequences_inj hall
      (fun q' hq' => (hproper q' hq').imp fun _ hv' => hv'.1) (hflatten.symm.trans hflatten')
    obtain ⟨v', hv', hgood⟩ := hproper q (hsame ▸ hq)
    obtain ⟨-, rfl, -⟩ := hv.prefix_free hv' (rfl : q ++ [] = q ++ [])
    exact hgood himproper
  · intro hnone
    have hagree : AreSequences s ↔ IsUtf8 s := by
      constructor
      · rintro ⟨qs, hflatten, hall⟩
        refine isUtf8_iff_proper.mpr ⟨qs, hflatten, fun q hq => ?_⟩
        obtain ⟨v, hv⟩ := hall q hq
        exact ⟨v, hv, fun himproper => hnone ⟨qs, hflatten, hall, q, hq, v, hv, himproper⟩⟩
      · intro hutf8
        obtain ⟨qs, hflatten, hproper⟩ := isUtf8_iff_proper.mp hutf8
        exact ⟨qs, hflatten, fun q hq => (hproper q hq).imp fun _ hv => hv.1⟩
    refine ⟨hagree, fun state' hok => ?_⟩
    obtain ⟨chars, hchars⟩ := hagree.mp (hwrites.mp ⟨state', hok⟩)
    obtain ⟨_, text, state'', hrun, -, houtput, hstring, -⟩ :=
      h.writeJsonString options hchars state hready
    cases hok.symm.trans hrun
    exact ⟨text, chars, houtput, isUtf8_of_isString hstring, hstring⟩

end

/-- An overlong zero, written as it is. -/
theorem agreesOnUtf8_iff_overlong :
    AgreesOnUtf8 plainCore id none [0xC0, 0x80] { world := [], writeFailed := false } ↔
      ¬∃ qs : List Bytes, [0xC0, 0x80] = qs.flatten ∧ (∀ q ∈ qs, ∃ v, IsSequence q v) ∧
        ∃ q ∈ qs, ∃ v, IsSequence q v ∧ IsImproper q v :=
  agreesOnUtf8_iff plainCore_escapes none [0xC0, 0x80] { world := [], writeFailed := false } rfl

/-- The exporter writes an overlong zero and a surrogate, which the verifier reports. -/
theorem not_agreesOnUtf8 :
    ¬AgreesOnUtf8 plainCore id none [0xC0, 0x80] { world := [], writeFailed := false } ∧
    ¬AgreesOnUtf8 plainCore id (some { indentSpaces := 2, sortKeys := true, asciiOnly := true })
      [0xED, 0xA0, 0x80] { world := [], writeFailed := false } := by
  have hwrites : ∀ options {byte : UInt8} {tails lead}, ¬byte < 0x80 →
      utf8Lead byte = some (tails.length, lead) → AreTails tails →
      ∃ state', writeJsonString plainCore options (byte :: tails) (byte :: tails).length
        { world := [], writeFailed := false } = .ok () state' := by
    intro options byte tails lead hhigh hlead htails
    refine (writeJsonString_ok_iff plainCore_escapes options _ _ rfl).mpr
      ⟨[byte :: tails], (List.flatten_singleton).symm, List.forall_mem_singleton.mpr ?_⟩
    exact ⟨_, .inr ⟨byte, tails, lead, rfl, hhigh, hlead, htails, rfl⟩⟩
  constructor
  · intro h
    have hverify := h.1.mp (hwrites none (by decide) rfl (by decide +kernel))
    exact absurd hverify (by decide +kernel)
  · intro h
    have hverify := h.1.mp (hwrites _ (by decide) rfl (by decide +kernel))
    exact absurd hverify (by decide +kernel)

end Hrbl
