import Hrbl.Lib.Ini
import Hrbl.IniExport

/-!
# Reading INI exports

What the text of an INI export says when it is read line by line. The exporter writes keys and
the names of sections as they are, so that whether every value is found in the section of its
block is a question about the keys.
-/

namespace Hrbl

open Lib Lib.Outcome

/-! ## Sections -/

/-- Keys with dots between them. -/
def dotJoin (path : List Bytes) : Bytes := [0x2E].intercalate path

/-- The section of the block that these keys lead to; the root has none. -/
def sectionName (path : List Bytes) : Option Bytes :=
  if path = [] then none else some (dotJoin path)

mutual

/-- A block and the blocks in it, each with the keys that lead to it and its own lines. -/
def blockSections (path : List Bytes) : Value → List (List Bytes × List IniLine)
  | .scalar _ => []
  | .array _ => []
  | .block members => (path, plainLines members) :: nestedSections path members

def nestedSections (path : List Bytes) : List (Bytes × Value) → List (List Bytes × List IniLine)
  | [] => []
  | (key, value) :: members => blockSections (path ++ [key]) value ++ nestedSections path members

end

/-- The root and the blocks of a document. -/
def documentSections (document : Document) : List (List Bytes × List IniLine) :=
  ([], plainLines document) :: nestedSections [] document

/-- The keys that lead to the root and to each block. -/
def documentPaths (document : Document) : List (List Bytes) :=
  (documentSections document).map Prod.fst

/-- The lines of a section, with its header. -/
def sectionLines (s : List Bytes × List IniLine) : List IniLine :=
  (if s.1 = [] then [] else [.header (dotJoin s.1)]) ++ s.2

theorem nestedSections_eq (path : List Bytes) (members : List (Bytes × Value)) :
    nestedSections path members =
      members.flatMap fun member => blockSections (path ++ [member.1]) member.2 := by
  induction members with
  | nil => rfl
  | cons member members ih =>
    obtain ⟨key, value⟩ := member
    rw [nestedSections, List.flatMap_cons, ih]

section

variable {order : List (Bytes × Value) → List (Bytes × Value) → Prop}

mutual

theorem Rearranged.paths_perm (horder : ∀ l l', order l l' → l.Perm l') :
    ∀ {value value' : Value} (path : List Bytes), Rearranged order value value' →
      ((blockSections path value').map Prod.fst).Perm ((blockSections path value).map Prod.fst)
  | .scalar s, _, path, h => by
    rw [Rearranged] at h
    rw [h]
  | .array elements, _, path, ⟨elements', heq, h⟩ => by
    rw [heq]
    exact .refl _
  | .block members, _, path, ⟨mid, members', heq, hmid, hout⟩ => by
    rw [heq, blockSections, blockSections, List.map_cons, List.map_cons]
    refine List.Perm.cons _ (List.Perm.trans ?_ (RearrangedMembers.paths_perm horder path hmid))
    rw [nestedSections_eq, nestedSections_eq]
    exact ((horder _ _ hout).symm.flatMap_right _).map _

theorem RearrangedMembers.paths_perm (horder : ∀ l l', order l l' → l.Perm l') :
    ∀ {members mid : List (Bytes × Value)} (path : List Bytes),
      RearrangedMembers order members mid →
        ((nestedSections path mid).map Prod.fst).Perm ((nestedSections path members).map Prod.fst)
  | [], _, path, h => by
    rw [RearrangedMembers] at h
    rw [h]
  | (key, value) :: members, _, path, ⟨value', rest, heq, hvalue, hrest⟩ => by
    rw [heq, nestedSections, nestedSections, List.map_append, List.map_append]
    exact (hvalue.paths_perm horder _).append (RearrangedMembers.paths_perm horder path hrest)

end

/-- The blocks do not depend on the order of members but for their own order. -/
theorem RearrangedDocument.paths_perm (horder : ∀ l l', order l l' → l.Perm l')
    {document document' : Document} (h : RearrangedDocument order document document') :
    (documentPaths document').Perm (documentPaths document) := by
  obtain ⟨mid, hmid, hout⟩ := h
  refine List.Perm.cons _ (List.Perm.trans ?_ (hmid.paths_perm horder []))
  rw [nestedSections_eq, nestedSections_eq]
  exact ((horder _ _ hout).symm.flatMap_right _).map _

end

/-! ## Sections and lines -/

/-- The records in the lines are those of the sections, in the same order. -/
theorem nestedSections_records : ∀ (members : List (Bytes × Value)) (section_ : Bytes)
    (path : List Bytes), (nestedLines section_ members).filter IniLine.isRecord =
      (nestedSections path members).flatMap Prod.snd
  | [], _, _ => rfl
  | (key, .scalar s) :: members, section_, path => nestedSections_records members section_ path
  | (key, .array elements) :: members, section_, path =>
    nestedSections_records members section_ path
  | (key, .block inner) :: members, section_, path => by
    have hinner := nestedSections_records inner (newSection section_ key) (path ++ [key])
    have hmembers := nestedSections_records members section_ path
    rw [nestedLines, List.filter_append, filter_blockLines, hinner, hmembers, ← plainLines_eq,
      nestedSections, blockSections, List.cons_append, List.flatMap_cons, List.flatMap_append,
      List.append_assoc]

theorem documentSections_records (document : Document) :
    (documentLines document).filter IniLine.isRecord =
      (documentSections document).flatMap Prod.snd := by
  rw [documentLines, List.filter_append, List.filter_eq_self.mpr (plainLines_isRecord document),
    nestedSections_records document [] [], documentSections, List.flatMap_cons]

/-- The records of the sections are those of the values. -/
theorem documentSections_perm (document : Document) :
    ((documentSections document).flatMap Prod.snd).Perm (membersRecords document).flatten := by
  obtain ⟨groups, hgroups, hperm⟩ := documentLines_records document
  rw [← documentSections_records, hgroups]
  exact hperm.flatten

theorem nestedSections_isRecord : ∀ (members : List (Bytes × Value)) (path : List Bytes),
    ∀ s ∈ nestedSections path members, ∀ line ∈ s.2, line.isRecord = true := by
  intro members path s hs line hline
  have hmem : line ∈ (nestedSections path members).flatMap Prod.snd :=
    List.mem_flatMap.mpr ⟨s, hs, hline⟩
  rw [← nestedSections_records members [] path] at hmem
  exact (List.mem_filter.mp hmem).2

theorem documentSections_isRecord (document : Document) :
    ∀ s ∈ documentSections document, ∀ line ∈ s.2, line.isRecord = true :=
  List.forall_mem_cons.mpr ⟨plainLines_isRecord document, nestedSections_isRecord document []⟩

/-! ## Names -/

theorem dotJoin_singleton (key : Bytes) : dotJoin [key] = key := List.intercalate_singleton

theorem dotJoin_cons {path : List Bytes} (h : path ≠ []) (first : Bytes) :
    dotJoin (first :: path) = first ++ [0x2E] ++ dotJoin path := List.intercalate_cons_of_ne_nil h

theorem dotJoin_append {path : List Bytes} (h : path ≠ []) (key : Bytes) :
    dotJoin (path ++ [key]) = dotJoin path ++ [0x2E] ++ key := by
  induction path with
  | nil => exact absurd rfl h
  | cons first path ih =>
    by_cases hpath : path = []
    · rw [hpath, List.singleton_append, dotJoin_cons (List.cons_ne_nil _ _), dotJoin_singleton,
        dotJoin_singleton]
    · rw [List.cons_append, dotJoin_cons (by simp), ih hpath, dotJoin_cons hpath]
      simp only [List.append_assoc]

/-- The keys are in the name. -/
theorem mem_dotJoin {b : UInt8} {path : List Bytes} {key : Bytes} (hkey : key ∈ path)
    (hb : b ∈ key) : b ∈ dotJoin path := by
  induction path with
  | nil => exact absurd hkey List.not_mem_nil
  | cons first path ih =>
    by_cases hpath : path = []
    · rw [hpath, List.mem_singleton] at hkey
      rwa [hpath, dotJoin_singleton, ← hkey]
    · rw [dotJoin_cons hpath]
      rcases List.mem_cons.mp hkey with rfl | hkey
      · exact List.mem_append_left _ (List.mem_append_left _ hb)
      · exact List.mem_append_right _ (ih hkey)

/-- Behind a name, the name of a block is that of its keys. -/
theorem newSection_dotJoin {path : List Bytes} (h : dotJoin path ≠ []) (key : Bytes) :
    newSection (dotJoin path) key = dotJoin (path ++ [key]) := by
  have hpath : path ≠ [] := by
    rintro rfl
    exact h rfl
  have hlength : (dotJoin path).length ≠ 0 := fun hzero => h (List.length_eq_zero_iff.mp hzero)
  rw [newSection, if_pos hlength, dotJoin_append hpath]

theorem newSection_nil (key : Bytes) : newSection [] key = dotJoin [key] := by
  rw [dotJoin_singleton]
  rfl

theorem filter_plainLines (members : List (Bytes × Value)) :
    (plainLines members).filter (· ≠ .blank) = plainLines members := by
  refine List.filter_eq_self.mpr fun line hline => decide_eq_true fun hblank => ?_
  have hrecord := plainLines_isRecord members line hline
  rw [hblank] at hrecord
  cases hrecord

/-- The lines of a block with a name, but for the blank one. -/
theorem nonblank_blockLines {name : Bytes} (h : name ≠ []) (members : List (Bytes × Value)) :
    (blockLines name (.block members)).filter (· ≠ .blank) =
      .header name :: (plainLines members ++ (nestedLines name members).filter (· ≠ .blank)) := by
  have hlength : name.length ≠ 0 := fun hzero => h (List.length_eq_zero_iff.mp hzero)
  have hheader : headerLines name = [.header name] := by
    rw [headerLines, if_pos hlength]
  rw [blockLines, hheader, List.filter_append, List.filter_append, filter_plainLines]
  refine congrArg (List.cons (IniLine.header name) ∘ (plainLines members ++ ·)) ?_
  cases hany : members.any isBlock with
  | true => rfl
  | false =>
    rw [nestedLines_eq_nil hany]
    rfl

/-- The lines that are not blank are those of the sections, behind a section with a name. -/
theorem nestedLines_sections : ∀ (members : List (Bytes × Value)) (path : List Bytes),
    dotJoin path ≠ [] → (nestedLines (dotJoin path) members).filter (· ≠ .blank) =
      (nestedSections path members).flatMap sectionLines
  | [], _, _ => rfl
  | (key, .scalar s) :: members, path, h => nestedLines_sections members path h
  | (key, .array elements) :: members, path, h => nestedLines_sections members path h
  | (key, .block inner) :: members, path, h => by
    have hpath : path ≠ [] := by
      rintro rfl
      exact h rfl
    have hname : dotJoin (path ++ [key]) ≠ [] := by
      rw [dotJoin_append hpath]
      simp
    have hlines : sectionLines (path ++ [key], plainLines inner) =
        .header (dotJoin (path ++ [key])) :: plainLines inner := by
      rw [sectionLines, if_neg (by simp)]
      rfl
    rw [nestedLines, List.filter_append, newSection_dotJoin h, nonblank_blockLines hname,
      nestedLines_sections inner (path ++ [key]) hname, nestedLines_sections members path h,
      nestedSections, blockSections, List.flatMap_append, List.flatMap_cons, hlines]
    simp only [List.cons_append, List.append_assoc]

/-- No block at the root has the empty key. -/
theorem key_ne_nil {document : Document} (h : [[]] ∉ documentPaths document) {key : Bytes}
    {inner : List (Bytes × Value)} (hmember : (key, .block inner) ∈ document) : key ≠ [] := by
  rintro rfl
  refine h (List.mem_cons_of_mem _ (List.mem_map.mpr ⟨([[]], plainLines inner), ?_, rfl⟩))
  rw [nestedSections_eq]
  exact List.mem_flatMap.mpr ⟨_, hmember, List.mem_cons_self⟩

theorem documentLines_sections {document : Document} (h : [[]] ∉ documentPaths document) :
    (documentLines document).filter (· ≠ .blank) =
      (documentSections document).flatMap sectionLines := by
  have hnested : ∀ members : List (Bytes × Value),
      (∀ key inner, (key, Value.block inner) ∈ members → key ≠ []) →
      (nestedLines [] members).filter (· ≠ .blank) =
        (nestedSections [] members).flatMap sectionLines := by
    intro members hmembers
    induction members with
    | nil => rfl
    | cons member members ih =>
      have hrest := ih fun key inner hmem => hmembers key inner (List.mem_cons_of_mem _ hmem)
      obtain ⟨key, value⟩ := member
      cases value with
      | scalar s => exact hrest
      | array elements => exact hrest
      | block inner =>
        have hname : dotJoin [key] ≠ [] := by
          rw [dotJoin_singleton]
          exact hmembers key inner List.mem_cons_self
        have hlines : sectionLines ([] ++ [key], plainLines inner) =
            .header (dotJoin [key]) :: plainLines inner := rfl
        rw [nestedLines, List.filter_append, newSection_nil, nonblank_blockLines hname,
          nestedLines_sections inner [key] hname, hrest, nestedSections, blockSections,
          List.flatMap_append, List.flatMap_cons, hlines]
        simp only [List.cons_append, List.append_assoc, List.nil_append]
  rw [documentLines, List.filter_append, filter_plainLines,
    hnested document fun key inner => key_ne_nil h, documentSections, List.flatMap_cons]
  rfl

/-- The names in the lines are names, and they are made of the keys of blocks and of dots. -/
theorem nestedLines_header : ∀ (members : List (Bytes × Value)) (section_ : Bytes)
    (path : List Bytes) (name : Bytes), .header name ∈ nestedLines section_ members →
      name ≠ [] ∧ (0x0A ∉ section_ →
        (∀ p ∈ (nestedSections path members).map Prod.fst, ∀ key ∈ p, 0x0A ∉ key) → 0x0A ∉ name)
  | (key, .scalar s) :: members, section_, path, name, h =>
    nestedLines_header members section_ path name h
  | (key, .array elements) :: members, section_, path, name, h =>
    nestedLines_header members section_ path name h
  | (key, .block inner) :: members, section_, path, name, h => by
    rw [nestedSections, blockSections, List.cons_append, List.map_cons, List.map_append]
    have hnew : 0x0A ∉ section_ → 0x0A ∉ key → 0x0A ∉ newSection section_ key := by
      intro hsection hkey hmem
      rw [newSection] at hmem
      split at hmem
      · simp only [List.mem_append, List.mem_singleton] at hmem
        rcases hmem with (hmem | hmem) | hmem
        · exact hsection hmem
        · cases hmem
        · exact hkey hmem
      · exact hkey hmem
    rw [nestedLines, List.mem_append] at h
    rcases h with h | h
    · rw [blockLines, List.mem_append, List.mem_append] at h
      rcases h with h | h | h
      · -- the header of the block itself
        rw [headerLines] at h
        split at h
        · rename_i hlength
          cases List.mem_singleton.mp h
          refine ⟨fun hnil => hlength (by rw [hnil]; rfl), fun hsection hkeys => hnew hsection ?_⟩
          exact hkeys _ List.mem_cons_self key (List.mem_append_right _ List.mem_cons_self)
        · cases h
      · exact absurd (plainLines_isRecord inner _ h) Bool.false_ne_true
      · split at h
        · rcases List.mem_cons.mp h with h | h
          · cases h
          · obtain ⟨hne, hclean⟩ := nestedLines_header inner _ (path ++ [key]) name h
            refine ⟨hne, fun hsection hkeys => hclean (hnew hsection ?_) fun p hp => ?_⟩
            · exact hkeys _ List.mem_cons_self key (List.mem_append_right _ List.mem_cons_self)
            · exact hkeys p (List.mem_cons_of_mem _ (List.mem_append_left _ hp))
        · cases h
    · obtain ⟨hne, hclean⟩ := nestedLines_header members section_ path name h
      refine ⟨hne, fun hsection hkeys => hclean hsection fun p hp => ?_⟩
      exact hkeys p (List.mem_cons_of_mem _ (List.mem_append_right _ hp))

theorem documentLines_header {document : Document} {name : Bytes}
    (h : .header name ∈ documentLines document) : name ≠ [] ∧
      ((∀ path ∈ documentPaths document, ∀ key ∈ path, 0x0A ∉ key) → 0x0A ∉ name) := by
  rw [documentLines, List.mem_append] at h
  rcases h with h | h
  · exact absurd (plainLines_isRecord document _ h) Bool.false_ne_true
  · obtain ⟨hne, hclean⟩ := nestedLines_header document [] [] name h
    exact ⟨hne, fun hkeys => hclean List.not_mem_nil fun p hp =>
      hkeys p (List.mem_cons_of_mem _ hp)⟩

/-! ## Values -/

variable {σ : Type}

/-- The formatters print the numbers that they are named for. -/
structure Core.PrintsNumbers (core : Core σ) : Prop where
  formatSigned : ∀ value world text world',
    core.formatSigned 64 value world = (some text, world') → text = Json.decimalInt value.toInt
  formatUnsigned : ∀ value world text world',
    core.formatUnsigned 64 value world = (some text, world') → text = Json.decimalNat value.toNat
  formatHexadecimal : ∀ c : UInt8, c < 0x20 → ∀ world text world',
    core.formatHexadecimal 2 c.toUInt64 2 world = (some text, world') →
      text = Json.hexDigits 2 c.toNat
  formatDouble : ∀ bits, isNonFinite bits = false → ∀ world text world',
    core.formatDouble 64 bits world = (some text, world') → Json.IsNumber text

/-- A text of one line that does not end in a bracket. -/
def IsPlain (text : Bytes) : Prop := 0x0A ∉ text ∧ text.getLast? ≠ some 0x5D

/-- What numbers are made of. -/
def IsNumeral (b : UInt8) : Prop :=
  Json.IsDigit b ∨ b = 0x2B ∨ b = 0x2D ∨ b = 0x2E ∨ b = 0x45 ∨ b = 0x65

theorem isPlain_of_numerals {text : Bytes} (h : ∀ b ∈ text, IsNumeral b) : IsPlain text := by
  have hne : ∀ b, IsNumeral b → b ≠ 0x0A ∧ b ≠ 0x5D := by
    rintro b (⟨hlow, hhigh⟩ | rfl | rfl | rfl | rfl | rfl)
    · constructor
      · rintro rfl
        exact absurd hlow (by decide)
      · rintro rfl
        exact absurd hhigh (by decide)
    all_goals exact ⟨by decide, by decide⟩
  refine ⟨fun hmem => (hne _ (h _ hmem)).1 rfl, fun hlast => ?_⟩
  exact (hne _ (h _ (List.mem_of_getLast? hlast))).2 rfl

theorem isNumeral_of_isNumber {text : Bytes} (h : Json.IsNumber text) :
    ∀ b ∈ text, IsNumeral b := by
  obtain ⟨minus, int, frac, exp, rfl, hminus, hint, hfrac, hexp⟩ := h
  simp only [List.forall_mem_append]
  refine ⟨⟨⟨?_, fun b hb => .inl (hint.isDigit b hb)⟩, ?_⟩, ?_⟩
  · rcases hminus with rfl | rfl
    · exact fun b hb => absurd hb List.not_mem_nil
    · exact List.forall_mem_singleton.mpr (.inr (.inr (.inl rfl)))
  · rcases hfrac with rfl | ⟨digits, rfl, -, hdigits⟩
    · exact fun b hb => absurd hb List.not_mem_nil
    · exact List.forall_mem_cons.mpr
        ⟨.inr (.inr (.inr (.inl rfl))), fun b hb => .inl (hdigits b hb)⟩
  · rcases hexp with rfl | ⟨e, sign, digits, rfl, he, hsign, -, hdigits⟩
    · exact fun b hb => absurd hb List.not_mem_nil
    · refine List.forall_mem_cons.mpr ⟨?_, List.forall_mem_append.mpr
        ⟨?_, fun b hb => .inl (hdigits b hb)⟩⟩
      · rcases he with rfl | rfl
        · exact .inr (.inr (.inr (.inr (.inr rfl))))
        · exact .inr (.inr (.inr (.inr (.inl rfl))))
      · rcases hsign with rfl | rfl | rfl
        · exact fun b hb => absurd hb List.not_mem_nil
        · exact List.forall_mem_singleton.mpr (.inr (.inl rfl))
        · exact List.forall_mem_singleton.mpr (.inr (.inr (.inl rfl)))

/-- No byte of a string is written with a newline. -/
theorem IsIniByte.unbroken {core : Core σ} (hcore : core.PrintsNumbers) {c : UInt8} {piece : Bytes}
    (h : IsIniByte core c piece) : 0x0A ∉ piece := by
  rw [IsIniByte] at h
  cases hescape : iniEscape c with
  | some chunk =>
    rw [hescape] at h
    have hchunk : piece = chunk := h
    rw [iniEscape] at hescape
    repeat' split at hescape
    all_goals cases hescape
    all_goals
      rw [hchunk]
      decide
  | none =>
    rw [hescape] at h
    dsimp only at h
    split at h
    · rename_i hcontrol
      obtain ⟨digits, world, world', hrun, rfl⟩ := h
      obtain rfl := hcore.formatHexadecimal c hcontrol world digits world' hrun
      have hall : ∀ n : Fin 0x20, 0x0A ∉ [0x5C, 0x78] ++ upperHex (Json.hexDigits 2 n) := by
        decide +kernel
      exact hall ⟨c.toNat, UInt8.lt_iff_toNat_lt.mp hcontrol⟩
    · rw [h, List.mem_singleton]
      rintro rfl
      cases hescape

/-- What a scalar is written as is plain. -/
theorem IsIniValue.isPlain {core : Core σ} (hcore : core.PrintsNumbers) {s : Scalar} {text : Bytes}
    (h : IsIniValue core s text) : IsPlain text := by
  have hinteger : ∀ {digits : Bytes} {v : Int}, Json.IsInteger digits v → IsPlain digits :=
    fun hv => isPlain_of_numerals (isNumeral_of_isNumber hv.isNumber)
  have hnil : IsPlain [] := ⟨List.not_mem_nil, nofun⟩
  cases s with
  | null =>
    rw [IsIniValue] at h
    exact h ▸ hnil
  | bool value =>
    cases value with
    | false =>
      rw [IsIniValue] at h
      exact h ▸ ⟨by decide, by decide⟩
    | true =>
      rw [IsIniValue] at h
      exact h ▸ ⟨by decide, by decide⟩
  | int64 value =>
    obtain ⟨world, world', hrun⟩ := h
    rw [hcore.formatSigned value world text world' hrun]
    exact hinteger (Json.isInteger_decimalInt _)
  | uint64 value =>
    obtain ⟨world, world', hrun⟩ := h
    rw [hcore.formatUnsigned value world text world' hrun]
    exact hinteger (Json.isInteger_decimalNat _)
  | float64 bits =>
    rw [IsIniValue] at h
    split at h
    · exact h ▸ hnil
    · rename_i hfinite
      obtain ⟨world, world', hrun⟩ := h
      exact isPlain_of_numerals (isNumeral_of_isNumber
        (hcore.formatDouble bits (Bool.eq_false_iff.mpr hfinite) world text world' hrun))
  | string value =>
    obtain ⟨pieces, rfl, hpieces⟩ := h
    constructor
    · simp only [List.mem_append, List.mem_singleton, List.mem_flatten]
      rintro (hquote | ⟨piece, hpiece, hmem⟩ | hquote)
      · cases hquote
      · obtain ⟨c, hc⟩ : ∃ c, IsIniByte core c piece := by
          obtain ⟨i, hi⟩ := List.getElem?_of_mem hpiece
          obtain ⟨hlt, hget⟩ := List.getElem?_eq_some_iff.mp hi
          have hlt' : i < value.length := by rwa [hpieces.length_eq]
          have hpair := (List.forall₂_iff_get.mp hpieces).2 i hlt' hlt
          rw [List.get_eq_getElem, List.get_eq_getElem, hget] at hpair
          exact ⟨_, hpair⟩
        exact hc.unbroken hcore hmem
      · cases hquote
    · rw [← List.append_assoc, List.getLast?_append]
      exact fun hlast => by cases hlast

end Hrbl
