import Hrbl.IniExport
import Hrbl.Lib.Quoting

/-!
# Escaped strings

What the INI exporter writes for a string is a quoted text, and the string can be read off it:
`bc_hrbl_ini_write_escaped` writes a piece for each byte, and no piece can be read in another way,
whatever the bytes around it are.
-/

namespace Hrbl

open Lib Lib.Outcome

variable {σ : Type}

/-- The sink takes all bytes, and a value below 32 is printed as two hexadecimal digits. -/
structure Core.Quotes (core : Core σ) (output : σ → Bytes) : Prop where
  writeBytes : ∀ data world, ∃ world', core.writeBytes data world = (true, world') ∧
    output world' = output world ++ data
  formatHexadecimal : ∀ c : UInt8, c < 0x20 → ∀ world, ∃ first second world',
    core.formatHexadecimal 2 c.toUInt64 2 world = (some [first, second], world') ∧
      output world' = output world ∧ Json.IsHexDigit first (c.toNat / 16) ∧
        Json.IsHexDigit second (c.toNat % 16)

/-- A text in quotes that stands for these bytes. -/
def IsQuoted (text bytes : Bytes) : Prop :=
  ∃ body, text = [0x22] ++ (body ++ [0x22]) ∧ Quoting.Stands body bytes

/-- The text that is written for a string, from one state or another. -/
def WrittenAs (core : Core σ) (output : σ → Bytes) (data : Bytes) (length : Nat) (text : Bytes) :
    Prop :=
  ∃ s s', s.writeFailed = false ∧ iniWriteEscaped core data length s = .ok () s' ∧
    output s'.world = output s.world ++ text

/-- A chunk of the `switch` is an escape with a letter. -/
theorem iniEscape_standsFor {c : UInt8} {chunk : Bytes} (h : iniEscape c = some chunk) :
    Quoting.StandsFor chunk c := by
  unfold iniEscape at h
  -- the cases of the switch, and what is not in it
  split at h
  · cases h
    subst c
    exact .letter (by decide)
  split at h
  · cases h
    subst c
    exact .letter (by decide)
  split at h
  · cases h
    subst c
    exact .letter (by decide)
  split at h
  · cases h
    subst c
    exact .letter (by decide)
  split at h
  · cases h
    subst c
    exact .letter (by decide)
  · cases h

/-- A byte without a chunk is neither a quote nor a backslash. -/
theorem iniEscape_none {c : UInt8} (h : iniEscape c = none) : c ≠ 0x22 ∧ c ≠ 0x5C := by
  constructor
  · rintro rfl
    cases h
  · rintro rfl
    cases h

/-- A digit in upper case is the same digit. -/
theorem upperHex_isHexDigit {b : UInt8} {n : Nat} (h : Json.IsHexDigit b n) :
    Json.IsHexDigit (if b ≥ 0x61 ∧ b ≤ 0x66 then b - 0x20 else b) n := by
  have hall : ∀ m : Fin 16, ∀ b ∈ [UInt8.ofNat (0x30 + m), UInt8.ofNat (0x37 + m),
      UInt8.ofNat (0x57 + m)], Json.IsHexDigit b m →
        Json.IsHexDigit (if b ≥ 0x61 ∧ b ≤ 0x66 then b - 0x20 else b) m := by decide +kernel
  refine hall ⟨n, h.1⟩ b ?_ h
  rcases h.2 with ⟨rfl, -⟩ | ⟨rfl, -⟩ | ⟨rfl, -⟩
  · exact List.mem_cons_self
  · exact List.mem_cons_of_mem _ List.mem_cons_self
  · exact List.mem_cons_of_mem _ (List.mem_cons_of_mem _ List.mem_cons_self)

namespace Writes

variable {core : Core σ} {output : σ → Bytes}

/-- One turn of the loop writes a piece that stands for the byte. -/
theorem iniWriteByte (h : core.Quotes output) (c : UInt8) :
    Writes output (iniWriteByte core c) fun _ text => Quoting.StandsFor text c := by
  unfold Hrbl.iniWriteByte
  cases hescape : iniEscape c with
  | some chunk =>
    refine (exportWriteAll h.writeBytes chunk).mono fun _ text htext => ?_
    rw [htext]
    exact iniEscape_standsFor hescape
  | none =>
    refine Outputs.ite (fun hcontrol => ?_) fun hprinted => ?_
    -- a control byte, as two digits in upper case
    · have hcall : ∀ world, ∃ digits world',
          core.formatHexadecimal 2 c.toUInt64 2 world = (some digits, world') ∧
            output world' = output world ∧ ∃ first second, digits = [first, second] ∧
              Json.IsHexDigit first (c.toNat / 16) ∧ Json.IsHexDigit second (c.toNat % 16) := by
        intro world
        obtain ⟨first, second, world', hrun, houtput, hfirst, hsecond⟩ :=
          h.formatHexadecimal c hcontrol world
        exact ⟨_, world', hrun, houtput, first, second, rfl, hfirst, hsecond⟩
      refine (formatted hcall).bind fun digits none hdigits => ?_
      obtain ⟨rfl, first, second, rfl, hfirst, hsecond⟩ := hdigits
      refine (exportWriteAll h.writeBytes _).bind fun _ mark hmark => ?_
      refine (exportWriteAll h.writeBytes _).mono fun _ text htext => ?_
      rw [hmark, htext]
      exact .hex (upperHex_isHexDigit hfirst) (upperHex_isHexDigit hsecond)
    -- any other byte, as it is
    · obtain ⟨hquote, hbackslash⟩ := iniEscape_none hescape
      refine (exportWriteAll h.writeBytes _).mono fun _ text htext => ?_
      rw [htext]
      exact .plain hquote hbackslash (UInt8.not_lt.mp hprinted)

/-- The loop writes a piece for each byte from the index on. -/
theorem iniEscapedLoop (h : core.Quotes output) {data : Bytes} {length : Nat}
    (hlength : length ≤ data.length) (i : Nat) :
    Writes output (iniEscapedLoop core data length i) fun _ text =>
      ∃ pieces, text = pieces.flatten ∧
        List.Forall₂ Quoting.StandsFor pieces ((data.take length).drop i) := by
  fun_induction Hrbl.iniEscapedLoop core data length i with
  | case1 i hi hnone =>
    rw [List.getElem?_eq_none_iff] at hnone
    omega
  | case2 i hi c hsome ih =>
    refine (iniWriteByte h c).bind fun _ piece hpiece => ih.mono fun _ rest hrest => ?_
    obtain ⟨pieces, rfl, hpieces⟩ := hrest
    refine ⟨piece :: pieces, rfl, ?_⟩
    have hget : (data.take length)[i]? = some c := by rw [List.getElem?_take_of_lt hi, hsome]
    obtain ⟨hlt, hget⟩ := List.getElem?_eq_some_iff.mp hget
    rw [List.drop_eq_getElem_cons hlt, hget]
    exact .cons hpiece hpieces
  | case3 i hi =>
    have hend : (data.take length).length ≤ i := by
      rw [List.length_take]
      omega
    rw [List.drop_eq_nil_of_le hend]
    exact Outputs.pure ⟨[], rfl, .nil⟩

theorem iniWriteEscaped (h : core.Quotes output) {data : Bytes} {length : Nat}
    (hlength : length ≤ data.length) :
    Writes output (iniWriteEscaped core data length) fun _ text =>
      IsQuoted text (data.take length) := by
  refine (exportWriteAll h.writeBytes _).bind fun _ opening hopening =>
    (iniEscapedLoop h hlength 0).bind fun _ body hbody =>
      (exportWriteAll h.writeBytes _).mono fun _ closing hclosing => ?_
  obtain ⟨pieces, rfl, hpieces⟩ := hbody
  rw [hopening, hclosing]
  exact ⟨_, rfl, Quoting.stands_flatten hpieces⟩

end Writes

/-- What is in quotes stands for one string. -/
theorem IsQuoted.unique {text bytes bytes' : Bytes} (h : IsQuoted text bytes)
    (h' : IsQuoted text bytes') : bytes = bytes' := by
  obtain ⟨body, rfl, hbody⟩ := h
  obtain ⟨body', hsame, hbody'⟩ := h'
  obtain rfl : body = body' := List.append_cancel_right (List.append_cancel_left hsame)
  exact hbody.unique hbody'

/-- A string is written as a text in quotes that stands for it; so no two strings are written as
one text. -/
theorem write_escaped_inverts {core : Core σ} {output : σ → Bytes} (hcore : core.Quotes output) :
    (∀ data length, length ≤ data.length →
      Writes output (iniWriteEscaped core data length) fun _ text =>
        IsQuoted text (data.take length)) ∧
    ∀ data data' length length' text, length ≤ data.length → length' ≤ data'.length →
      WrittenAs core output data length text → WrittenAs core output data' length' text →
      data.take length = data'.take length' := by
  have hquoted : ∀ data length text, length ≤ data.length →
      WrittenAs core output data length text → IsQuoted text (data.take length) := by
    intro data length text hlength hwritten
    obtain ⟨s, s', hs, hrun, houtput⟩ := hwritten
    obtain ⟨_, text', s'', hrun', -, houtput', htext'⟩ := Writes.iniWriteEscaped hcore hlength s hs
    cases hrun.symm.trans hrun'
    rw [List.append_cancel_left (houtput.symm.trans houtput')]
    exact htext'
  constructor
  · intro data length hlength
    exact Writes.iniWriteEscaped hcore hlength
  · intro data data' length length' text hlength hlength' hwritten hwritten'
    exact (hquoted data length text hlength hwritten).unique
      (hquoted data' length' text hlength' hwritten')

/-- The world whose sink appends. -/
theorem write_escaped_inverts_plain :
    (∀ data length, length ≤ data.length →
      Writes id (iniWriteEscaped plainCore data length) fun _ text =>
        IsQuoted text (data.take length)) ∧
    ∀ data data' length length' text, length ≤ data.length → length' ≤ data'.length →
      WrittenAs plainCore id data length text → WrittenAs plainCore id data' length' text →
      data.take length = data'.take length' := by
  refine write_escaped_inverts ⟨fun data world => ⟨_, rfl, rfl⟩, ?_⟩
  intro c hcontrol world
  have hlt : c.toNat < 0x20 := UInt8.lt_iff_toNat_lt.mp hcontrol
  have hdigit : ∀ n < 16, Json.IsHexDigit (Json.hexDigit n) n := by decide
  have hfirst : c.toNat / 16 % 16 = c.toNat / 16 := by omega
  refine ⟨_, _, _, rfl, rfl, ?_, hdigit _ (Nat.mod_lt _ (by decide))⟩
  change Json.IsHexDigit (Json.hexDigit (c.toNat / 16 % 16)) _
  rw [hfirst]
  exact hdigit _ (by omega)

end Hrbl
