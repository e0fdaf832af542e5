import Mathlib

/-!
# INI texts

A reading of INI texts, as bytes and line by line: a line in brackets opens a section, and any
other line that is not empty is a record of the section that was opened last. The key of a record
ends where the first mark stands, and its value is what follows.
-/

namespace Lib.Ini

/-- The bytes of a text. -/
abbrev Text := List UInt8

/-- What stands between the key and the value of a record. -/
inductive Mark where
  | assign
  | append
deriving Repr, DecidableEq

/-- A space, an equals sign and a space; or two brackets and an equals sign. -/
def Mark.text : Mark → Text
  | .assign => [0x20, 0x3D, 0x20]
  | .append => [0x5B, 0x5D, 0x3D]

structure Record where
  key : Text
  mark : Mark
  value : Text
deriving Repr, DecidableEq

inductive Line where
  | blank
  | header (name : Text)
  | record (record : Record)
deriving Repr, DecidableEq

/-- A line without the newline at its end. -/
def Line.render : Line → Text
  | .blank => []
  | .header name => [0x5B] ++ (name ++ [0x5D])
  | .record r => r.key ++ (r.mark.text ++ r.value)

/-- Lines, each with a newline at its end. -/
def renderLines (lines : List Line) : Text := lines.flatMap fun line => line.render ++ [0x0A]

/-! ## Reading -/

/-- The mark that a text starts with. -/
def markAt (text : Text) : Option Mark :=
  if Mark.assign.text <+: text then some .assign
  else if Mark.append.text <+: text then some .append
  else none

/-- A record, up to the first mark and behind it. -/
def readRecord : Text → Option Record
  | [] => none
  | b :: rest =>
    match markAt (b :: rest) with
    | some mark => some ⟨[], mark, (b :: rest).drop 3⟩
    | none => (readRecord rest).map fun r => { r with key := b :: r.key }

/-- A name in brackets. -/
def IsHeader (text : Text) : Prop :=
  2 ≤ text.length ∧ text.head? = some 0x5B ∧ text.getLast? = some 0x5D

instance (text : Text) : Decidable (IsHeader text) := inferInstanceAs (Decidable (_ ∧ _))

def readLine (text : Text) : Option Line :=
  if text = [] then some .blank
  else if IsHeader text then some (.header text.tail.dropLast)
  else (readRecord text).map .record

/-- A section with its records; those before any header are in the one without a name. -/
abbrev Section := Option Text × List Record

/-- The records behind each header, from a section that is open on. -/
def gather (name : Option Text) (records : List Record) : List Line → List Section
  | [] => [(name, records)]
  | .blank :: lines => gather name records lines
  | .header next :: lines => (name, records) :: gather (some next) [] lines
  | .record r :: lines => gather name (records ++ [r]) lines

/-- The sections of a text, if each of its lines can be read. -/
def readSections (text : Text) : Option (List Section) :=
  ((text.splitOn 0x0A).mapM readLine).map (gather none [])

/-! ## Marks -/

theorem Mark.length_text (mark : Mark) : mark.text.length = 3 := by
  cases mark <;> rfl

theorem markAt_text (mark : Mark) (rest : Text) : markAt (mark.text ++ rest) = some mark := by
  cases mark with
  | assign => rw [markAt, if_pos (List.prefix_append _ _)]
  | append =>
    have hnot : ¬Mark.assign.text <+: Mark.append.text ++ rest := by
      intro h
      obtain ⟨more, hmore⟩ := h
      cases hmore
    rw [markAt, if_neg hnot, if_pos (List.prefix_append _ _)]

/-- Three bytes say whether there is a mark. -/
theorem markAt_append {text : Text} (h : 3 ≤ text.length) (rest : Text) :
    markAt (text ++ rest) = markAt text := by
  have hprefix : ∀ mark : Mark, mark.text <+: text ++ rest ↔ mark.text <+: text := by
    intro mark
    constructor
    · intro hmark
      exact List.prefix_of_prefix_length_le hmark (List.prefix_append _ _)
        (by rw [mark.length_text]; exact h)
    · intro hmark
      exact hmark.trans (List.prefix_append _ _)
  simp only [markAt, hprefix]

theorem markAt_eq_some {text : Text} {mark : Mark} (h : markAt text = some mark) :
    text = mark.text ++ text.drop 3 := by
  have hsplit : ∀ m : Mark, m.text <+: text → text = m.text ++ text.drop 3 := by
    rintro m ⟨rest, rfl⟩
    rw [← m.length_text, List.drop_left]
  rw [markAt] at h
  split at h
  · cases h
    exact hsplit _ ‹_›
  · split at h
    · cases h
      exact hsplit _ ‹_›
    · cases h

/-! ## Records -/

/-- No mark starts inside of the key, when this mark follows it. -/
def KeyEnds (key : Text) (mark : Mark) : Prop :=
  ∀ i < key.length, markAt ((key ++ mark.text).drop i) = none

instance (key : Text) (mark : Mark) : Decidable (KeyEnds key mark) :=
  inferInstanceAs (Decidable (∀ i < key.length, _))

/-- A record is what its text is made of, and its mark is the first. -/
theorem readRecord_eq_some {text : Text} {r : Record} (h : readRecord text = some r) :
    text = (Line.record r).render ∧ ∀ i < r.key.length, markAt (text.drop i) = none := by
  induction text generalizing r with
  | nil => cases h
  | cons b rest ih =>
    rw [readRecord] at h
    cases hmark : markAt (b :: rest) with
    | some mark =>
      rw [hmark] at h
      cases h
      exact ⟨markAt_eq_some hmark, fun i hi => absurd hi (Nat.not_lt_zero i)⟩
    | none =>
      rw [hmark] at h
      obtain ⟨r', hread, rfl⟩ := Option.map_eq_some_iff.mp h
      obtain ⟨htext, hfirst⟩ := ih hread
      refine ⟨congrArg (List.cons b) htext, fun i hi => ?_⟩
      cases i with
      | zero => exact hmark
      | succ i => exact hfirst i (Nat.lt_of_succ_lt_succ hi)

/-- A text with a mark is read as a record, whose key is no longer than what stands before the
mark. -/
theorem exists_readRecord (key : Text) (mark : Mark) (value : Text) :
    ∃ r, readRecord (key ++ (mark.text ++ value)) = some r ∧ r.key.length ≤ key.length := by
  induction key with
  | nil =>
    obtain ⟨b, rest, hcons⟩ : ∃ b rest, mark.text ++ value = b :: rest := by
      cases mark <;> exact ⟨_, _, rfl⟩
    refine ⟨⟨[], mark, (b :: rest).drop 3⟩, ?_, le_rfl⟩
    have hmark := markAt_text mark value
    rw [hcons] at hmark
    rw [List.nil_append, hcons, readRecord, hmark]
  | cons b key ih =>
    rw [List.cons_append, readRecord]
    cases hmark : markAt (b :: (key ++ (mark.text ++ value))) with
    | some first => exact ⟨_, rfl, Nat.zero_le _⟩
    | none =>
      obtain ⟨r, hread, hlength⟩ := ih
      exact ⟨{ r with key := b :: r.key }, by rw [hread]; rfl, Nat.succ_le_succ hlength⟩

/-- A record is read back if and only if its key ends where its mark stands. -/
theorem readRecord_render_iff {r r' : Record} (h : readRecord (Line.record r).render = some r') :
    r'.key.length = r.key.length ↔ KeyEnds r.key r.mark := by
  obtain ⟨htext, hfirst⟩ := readRecord_eq_some h
  have hsame : ∀ i < r.key.length, markAt ((Line.record r).render.drop i) =
      markAt ((r.key ++ r.mark.text).drop i) := by
    intro i hi
    have hsplit : (Line.record r).render.drop i =
        (r.key ++ r.mark.text).drop i ++ r.value := by
      rw [Line.render, ← List.append_assoc, List.drop_append_of_le_length]
      rw [List.length_append]
      omega
    rw [hsplit, markAt_append]
    rw [List.length_drop, List.length_append, Mark.length_text]
    omega
  constructor
  · intro hlength i hi
    rw [← hsame i hi]
    exact hfirst i (by omega)
  · intro hends
    obtain ⟨r'', hread, hle⟩ := exists_readRecord r.key r.mark r.value
    have hrender : (Line.record r).render = r.key ++ (r.mark.text ++ r.value) := rfl
    rw [← hrender, h] at hread
    cases hread
    -- before the key ends, there is no mark
    by_contra hne
    have hlt : r'.key.length < r.key.length := by omega
    have hnone := (hsame _ hlt).trans (hends _ hlt)
    rw [htext, Line.render, List.drop_left, markAt_text] at hnone
    cases hnone

theorem readRecord_render {r : Record} (h : KeyEnds r.key r.mark) :
    readRecord (Line.record r).render = some r := by
  obtain ⟨r', hread, -⟩ := exists_readRecord r.key r.mark r.value
  have hlength := (readRecord_render_iff (r := r) hread).mpr h
  obtain ⟨htext, -⟩ := readRecord_eq_some hread
  -- the two renderings are one text, and their keys end at one place
  obtain ⟨hkey, hrest⟩ := List.append_inj htext hlength.symm
  have hmark := congrArg markAt hrest
  rw [markAt_text, markAt_text, Option.some.injEq] at hmark
  rw [hmark] at hrest
  have hvalue := List.append_cancel_left hrest
  obtain ⟨key, mark, value⟩ := r
  obtain ⟨key', mark', value'⟩ := r'
  dsimp only at hkey hmark hvalue
  subst hkey
  subst hmark
  subst hvalue
  exact hread

/-! ## Lines -/

/-- The key of a record; no other line has one. -/
def Line.key : Line → Text
  | .blank => []
  | .header _ => []
  | .record r => r.key

theorem isHeader_header (name : Text) : IsHeader (Line.header name).render := by
  refine ⟨?_, rfl, ?_⟩
  · rw [Line.render, List.length_append, List.length_append]
    exact Nat.add_le_add_left (Nat.le_add_left 1 _) 1
  · rw [Line.render, ← List.append_assoc, List.getLast?_append]
    rfl

theorem readLine_blank : readLine Line.blank.render = some .blank := rfl

theorem readLine_header (name : Text) :
    readLine (Line.header name).render = some (.header name) := by
  have htail : (Line.header name).render.tail.dropLast = name := List.dropLast_concat
  have hne : (Line.header name).render ≠ [] := List.cons_ne_nil _ _
  rw [readLine, if_neg hne, if_pos (isHeader_header name), htail]

theorem render_record_ne_nil (r : Record) : (Line.record r).render ≠ [] := by
  intro hnil
  have hlength := congrArg List.length hnil
  rw [Line.render, List.length_append, List.length_append, Mark.length_text,
    List.length_nil] at hlength
  omega

/-- The text of a record is read as a record. -/
theorem readLine_record {r : Record} (h : ¬IsHeader (Line.record r).render) :
    ∃ r', readRecord (Line.record r).render = some r' ∧
      readLine (Line.record r).render = some (.record r') ∧ r'.key.length ≤ r.key.length := by
  obtain ⟨r', hread, hle⟩ := exists_readRecord r.key r.mark r.value
  refine ⟨r', hread, ?_, hle⟩
  have hread' : readRecord (Line.record r).render = some r' := hread
  rw [readLine, if_neg (render_record_ne_nil r), if_neg h, hread', Option.map_some]

/-- Names and keys are of one line. -/
def Line.Unbroken : Line → Prop
  | .blank => True
  | .header name => 0x0A ∉ name
  | .record r => 0x0A ∉ r.key

theorem readLine_unbroken {text : Text} {line : Line} (h : readLine text = some line)
    (htext : 0x0A ∉ text) : line.Unbroken := by
  rw [readLine] at h
  split at h
  · cases h
    exact trivial
  · split at h
    · cases h
      exact fun hmem => htext (List.mem_of_mem_tail (List.mem_of_mem_dropLast hmem))
    · obtain ⟨r, hread, rfl⟩ := Option.map_eq_some_iff.mp h
      have hrender := (readRecord_eq_some hread).1
      refine fun hmem => htext ?_
      rw [hrender]
      exact List.mem_append_left _ hmem

/-- No piece of a text that is split has the byte it is split at. -/
theorem not_mem_of_mem_splitOn {b : UInt8} :
    ∀ {text piece : Text}, piece ∈ text.splitOn b → b ∉ piece
  | [], piece, h => by
    rw [List.splitOn_nil, List.mem_singleton] at h
    rw [h]
    exact List.not_mem_nil
  | c :: text, piece, h => by
    obtain ⟨first, rest, hcons⟩ := List.exists_cons_of_ne_nil (List.splitOn_ne_nil b text)
    have hpieces : ∀ piece ∈ first :: rest, b ∉ piece := fun piece hpiece =>
      not_mem_of_mem_splitOn (hcons ▸ hpiece)
    rw [List.splitOn_cons_eq_if_modifyHead, hcons] at h
    by_cases hc : c = b
    · rw [if_pos (beq_iff_eq.mpr hc)] at h
      rcases List.mem_cons.mp h with rfl | h
      · exact List.not_mem_nil
      · exact hpieces piece h
    · rw [if_neg (fun heq => hc (beq_iff_eq.mp heq)), List.modifyHead_cons] at h
      rcases List.mem_cons.mp h with rfl | h
      · intro hmem
        rcases List.mem_cons.mp hmem with rfl | hmem
        · exact hc rfl
        · exact hpieces first List.mem_cons_self hmem
      · exact hpieces piece (List.mem_cons_of_mem _ h)

/-- Lines of one line each are what their text is split into. -/
theorem splitOn_renderLines {lines : List Line} (h : ∀ line ∈ lines, 0x0A ∉ line.render) :
    (renderLines lines).splitOn 0x0A = lines.map Line.render ++ [[]] := by
  induction lines with
  | nil => rfl
  | cons line lines ih =>
    obtain ⟨hline, hlines⟩ := List.forall_mem_cons.mp h
    have hcons : renderLines (line :: lines) = line.render ++ 0x0A :: renderLines lines := by
      rw [renderLines, List.flatMap_cons, List.append_assoc]
      rfl
    rw [hcons, List.splitOn_append_cons_of_beq _ _ (beq_self_eq_true _),
      List.splitOn_eq_singleton hline, ih hlines]
    rfl

/-- All lines are read, each as its own. -/
theorem mapM_readLine_iff {texts : List Text} {lines : List Line} :
    texts.mapM readLine = some lines ↔
      List.Forall₂ (fun text line => readLine text = some line) texts lines := by
  induction texts generalizing lines with
  | nil =>
    rw [List.mapM_nil, List.forall₂_nil_left_iff]
    exact ⟨fun h => (Option.some.inj h).symm, fun h => h ▸ rfl⟩
  | cons text texts ih =>
    rw [List.mapM_cons, List.forall₂_cons_left_iff]
    constructor
    · intro h
      obtain ⟨line, hline, h⟩ := Option.bind_eq_some_iff.mp h
      obtain ⟨rest, hrest, h⟩ := Option.bind_eq_some_iff.mp h
      cases h
      exact ⟨line, rest, hline, ih.mp hrest, rfl⟩
    · rintro ⟨line, rest, hline, hrest, rfl⟩
      rw [hline, ih.mpr hrest]
      rfl

/-! ## Sections -/

/-- What stands in the lines of a section, its header first. -/
def Section.lines (s : Section) : List Line :=
  (match s.1 with
    | none => []
    | some name => [.header name]) ++ s.2.map .record

/-- The lines of the sections are the lines that are not blank. -/
theorem gather_lines (name : Option Text) (records : List Record) (lines : List Line) :
    (gather name records lines).flatMap Section.lines =
      Section.lines (name, records) ++ lines.filter (· ≠ .blank) := by
  induction lines generalizing name records with
  | nil => rfl
  | cons line lines ih =>
    cases line with
    | blank => exact ih name records
    | header next =>
      have hheader : Section.lines (some next, []) = [.header next] := rfl
      rw [gather, List.flatMap_cons, ih, hheader]
      rfl
    | record r =>
      have hrecord : Section.lines (name, records ++ [r]) =
          Section.lines (name, records) ++ [.record r] := by
        simp only [Section.lines, List.map_append, List.append_assoc]
        rfl
      rw [gather, ih, hrecord, List.append_assoc]
      rfl

/-- Sections with names, behind one without, are gathered from their lines. -/
theorem gather_of_lines {lines : List Line} {name : Option Text} {records more : List Record}
    {sections : List Section} (hnames : ∀ s ∈ sections, s.1 ≠ none)
    (h : lines.filter (· ≠ .blank) = more.map .record ++ sections.flatMap Section.lines) :
    gather name records lines = (name, records ++ more) :: sections := by
  -- a header closes the section, and the records in front of it are its own
  induction lines generalizing name records more sections with
  | nil =>
    cases more with
    | cons r more => cases h
    | nil =>
      cases sections with
      | nil => rw [gather, List.append_nil]
      | cons s sections =>
        obtain ⟨sectionName, inside⟩ := s
        cases sectionName with
        | none => exact absurd rfl (hnames _ List.mem_cons_self)
        | some sectionName => cases h
  | cons line lines ih =>
    cases line with
    | blank => exact ih hnames h
    | header next =>
      have hfilter : (Line.header next :: lines).filter (· ≠ .blank) =
          .header next :: lines.filter (· ≠ .blank) := rfl
      rw [hfilter] at h
      cases more with
      | cons r more => cases h
      | nil =>
        cases sections with
        | nil => cases h
        | cons s sections =>
          obtain ⟨hname, hrest⟩ := List.forall_mem_cons.mp hnames
          obtain ⟨sectionName, inside⟩ := s
          cases sectionName with
          | none => exact absurd rfl hname
          | some sectionName =>
            have hlines : Line.header next :: lines.filter (· ≠ .blank) =
                .header sectionName :: (inside.map .record ++ sections.flatMap Section.lines) := h
            rw [List.cons.injEq, Line.header.injEq] at hlines
            obtain ⟨rfl, hrecords⟩ := hlines
            rw [gather, ih hrest hrecords, List.append_nil]
            rfl
    | record r =>
      have hfilter : (Line.record r :: lines).filter (· ≠ .blank) =
          .record r :: lines.filter (· ≠ .blank) := rfl
      rw [hfilter] at h
      cases more with
      | cons r' more =>
        have hlines : Line.record r :: lines.filter (· ≠ .blank) =
            .record r' :: (more.map .record ++ sections.flatMap Section.lines) := h
        rw [List.cons.injEq, Line.record.injEq] at hlines
        obtain ⟨rfl, hrecords⟩ := hlines
        rw [gather, ih hnames hrecords, List.append_assoc]
        rfl
      | nil =>
        cases sections with
        | nil => cases h
        | cons s sections =>
          obtain ⟨sectionName, inside⟩ := s
          cases sectionName with
          | none => exact absurd rfl (hnames _ List.mem_cons_self)
          | some sectionName => cases h

theorem gather_append_blank (name : Option Text) (records : List Record) (lines : List Line) :
    gather name records (lines ++ [.blank]) = gather name records lines := by
  induction lines generalizing name records with
  | nil => rfl
  | cons line lines ih =>
    cases line with
    | blank => exact ih name records
    | header next => exact congrArg (List.cons (name, records)) (ih (some next) [])
    | record r => exact ih name (records ++ [r])

/-- The sections of a text of lines are gathered from what each of them is read as. -/
theorem readSections_renderLines {lines : List Line}
    (h : ∀ line ∈ lines, 0x0A ∉ line.render) : readSections (renderLines lines) =
      ((lines.map Line.render).mapM readLine).map (gather none []) := by
  rw [readSections, splitOn_renderLines h, List.mapM_append]
  cases hread : (lines.map Line.render).mapM readLine with
  | none => rfl
  | some read =>
    change some (gather none [] (read ++ [.blank])) = some (gather none [] read)
    rw [gather_append_blank]

/-- The names and keys in the sections of a text are of one line. -/
theorem readSections_unbroken {text : Text} {sections : List Section}
    (h : readSections text = some sections) :
    ∀ line ∈ sections.flatMap Section.lines, line.Unbroken := by
  obtain ⟨read, hread, rfl⟩ := Option.map_eq_some_iff.mp h
  rw [gather_lines]
  intro line hline
  have hmem : line ∈ read := (List.mem_filter.mp hline).1
  have hpieces := mapM_readLine_iff.mp hread
  obtain ⟨i, hi⟩ := List.getElem?_of_mem hmem
  obtain ⟨piece, hpiece, hline'⟩ : ∃ piece ∈ text.splitOn 0x0A, readLine piece = some line := by
    obtain ⟨hlt, hget⟩ := List.getElem?_eq_some_iff.mp hi
    have hlt' : i < (text.splitOn 0x0A).length := by rwa [hpieces.length_eq]
    refine ⟨(text.splitOn 0x0A)[i], List.getElem_mem hlt', ?_⟩
    have hread := (List.forall₂_iff_get.mp hpieces).2 i hlt' hlt
    rw [List.get_eq_getElem, List.get_eq_getElem, hget] at hread
    exact hread
  exact readLine_unbroken hline' (not_mem_of_mem_splitOn hpiece)

end Lib.Ini
