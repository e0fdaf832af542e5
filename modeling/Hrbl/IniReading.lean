import Hrbl.Formatting
import Hrbl.IniSections

/-!
# Attribution of values

Whether every value of a document is found, under its own key, in the section of its own block,
when the text of its INI export is read. It is a question about the keys: the exporter writes no
header for a block whose name is empty, and no key is escaped.
-/

namespace Hrbl

open Lib Lib.Outcome

variable {σ : Type}

/-! ## What is asked -/

section

variable (core : Core σ)

/-- A record with the key, the mark and the value of a line. -/
def IsRead : IniLine → Ini.Record → Prop
  | .blank, _ => False
  | .header _, _ => False
  | .record key s, r => r.key = key ∧ r.mark = .assign ∧ IsIniValue core s r.value
  | .element key s, r => r.key = key ∧ r.mark = .append ∧ IsIniValue core s r.value

/-- A section with the name of a block and with its records. -/
def IsSection (s : List Bytes × List IniLine) (read : Ini.Section) : Prop :=
  read.1 = sectionName s.1 ∧ List.Forall₂ (IsRead core) s.2 read.2

/-- The text has a section for the root and for every block, under names that are different, and
in each of them the values of that block under their own keys. -/
def Attributes (document : Document) (text : Bytes) : Prop :=
  ∃ sections document', Ini.readSections text = some sections ∧
    RearrangedDocument List.Perm document document' ∧
    List.Forall₂ (IsSection core) (documentSections document') sections ∧
    (sections.map Prod.fst).Nodup

end

/-- The key of a line with a value. -/
def IniLine.key : IniLine → Bytes
  | .blank => []
  | .header _ => []
  | .record key _ => key
  | .element key _ => key

/-- The key of the line can be read: it is of one line, and its mark is the first. -/
def IniLine.KeyReadable : IniLine → Prop
  | .blank => True
  | .header _ => True
  | .record key _ => 0x0A ∉ key ∧ Ini.KeyEnds key .assign
  | .element key _ => 0x0A ∉ key ∧ Ini.KeyEnds key .append

/-- What has to hold of the keys of a document. -/
structure IniReadable (document : Document) : Prop where
  /-- No block at the root has the empty key. -/
  named : [[]] ∉ documentPaths document
  /-- No two blocks have one name. -/
  distinct : ((documentPaths document).map sectionName).Nodup
  /-- The keys of blocks are of one line. -/
  unbroken : ∀ path ∈ documentPaths document, ∀ key ∈ path, 0x0A ∉ key
  keys : ∀ line ∈ (membersRecords document).flatten, line.KeyReadable

/-- The order of members does not matter for that. -/
theorem RearrangedDocument.readable {document document' : Document}
    (h : RearrangedDocument List.Perm document document') (hreadable : IniReadable document) :
    IniReadable document' := by
  have hpaths := h.paths_perm fun _ _ => id
  have hrecords := (h.records_perm fun _ _ => id).flatten
  constructor
  · exact fun hmem => hreadable.named (hpaths.mem_iff.mp hmem)
  · exact (hpaths.map _).nodup_iff.mpr hreadable.distinct
  · exact fun path hpath => hreadable.unbroken path (hpaths.mem_iff.mp hpath)
  · exact fun line hline => hreadable.keys line (hrecords.mem_iff.mp hline)

/-! ## Lines as they are rendered -/

/-- What a line is the rendering of. -/
inductive Renders (core : Core σ) : IniLine → Ini.Line → Prop where
  | blank : Renders core .blank .blank
  | header (name : Bytes) : Renders core (.header name) (.header name)
  | record {line : IniLine} {r : Ini.Record} (h : IsRead core line r) :
    Renders core line (.record r)

variable {core : Core σ}

theorem IsIniLine.renders {line : IniLine} {text : Bytes} (h : IsIniLine core line text) :
    ∃ read : Ini.Line, Renders core line read ∧ text = read.render := by
  cases line with
  | blank => exact ⟨.blank, .blank, h⟩
  | header name => exact ⟨.header name, .header name, h⟩
  | record key s =>
    obtain ⟨written, hwritten, rfl⟩ := h
    exact ⟨.record ⟨key, .assign, written⟩, .record ⟨rfl, rfl, hwritten⟩, rfl⟩
  | element key s =>
    obtain ⟨written, hwritten, rfl⟩ := h
    exact ⟨.record ⟨key, .append, written⟩, .record ⟨rfl, rfl, hwritten⟩, rfl⟩

theorem AreIniLines.renders {lines : List IniLine} {text : Bytes} (h : AreIniLines core lines text) :
    ∃ rendered, List.Forall₂ (Renders core) lines rendered ∧ text = Ini.renderLines rendered := by
  obtain ⟨texts, hlines, rfl⟩ := h
  induction hlines with
  | nil => exact ⟨[], .nil, rfl⟩
  | cons hline _ ih =>
    obtain ⟨read, hread, rfl⟩ := hline.renders
    obtain ⟨rest, hrest, htext⟩ := ih
    refine ⟨read :: rest, .cons hread hrest, ?_⟩
    rw [List.flatMap_cons, htext]
    rfl

theorem IsRead.isRecord {line : IniLine} {r : Ini.Record} (h : IsRead core line r) :
    line.isRecord = true := by
  cases line with
  | blank => exact h.elim
  | header name => exact h.elim
  | record key s => rfl
  | element key s => rfl

theorem IsRead.key_eq {line : IniLine} {r : Ini.Record} (h : IsRead core line r) :
    r.key = line.key := by
  cases line with
  | blank => exact h.elim
  | header name => exact h.elim
  | record key s => exact h.1
  | element key s => exact h.1

theorem IsRead.value_plain (hcore : core.PrintsNumbers) {line : IniLine} {r : Ini.Record}
    (h : IsRead core line r) : IsPlain r.value := by
  cases line with
  | blank => exact h.elim
  | header name => exact h.elim
  | record key s => exact h.2.2.isPlain hcore
  | element key s => exact h.2.2.isPlain hcore

theorem IsRead.keyReadable {line : IniLine} {r : Ini.Record} (h : IsRead core line r) :
    line.KeyReadable ↔ 0x0A ∉ r.key ∧ Ini.KeyEnds r.key r.mark := by
  cases line with
  | blank => exact h.elim
  | header name => exact h.elim
  | record key s =>
    obtain ⟨hkey, hmark, -⟩ := h
    rw [hkey, hmark]
    rfl
  | element key s =>
    obtain ⟨hkey, hmark, -⟩ := h
    rw [hkey, hmark]
    rfl

/-- No record is taken for a header: its value does not end in a bracket, and where it has none,
its mark does not. -/
theorem IsPlain.not_isHeader {r : Ini.Record} (h : IsPlain r.value) :
    ¬Ini.IsHeader (Ini.Line.record r).render := by
  rintro ⟨-, -, hlast⟩
  rw [Ini.Line.render, ← List.append_assoc, List.getLast?_append] at hlast
  cases hvalue : r.value.getLast? with
  | some b =>
    rw [hvalue] at hlast
    exact h.2 (hvalue.trans hlast)
  | none =>
    rw [hvalue, Option.none_or, List.getLast?_append] at hlast
    cases hmark : r.mark with
    | assign =>
      rw [hmark] at hlast
      cases hlast
    | append =>
      rw [hmark] at hlast
      cases hlast

/-- A line is of one line if its name and its key are. -/
theorem Renders.unbroken (hcore : core.PrintsNumbers) {line : IniLine} {rendered : Ini.Line}
    (h : Renders core line rendered) (hheader : ∀ name, line = .header name → 0x0A ∉ name)
    (hkey : 0x0A ∉ line.key) : 0x0A ∉ rendered.render := by
  cases h with
  | blank => exact List.not_mem_nil
  | header name =>
    rw [Ini.Line.render, List.mem_append, List.mem_append]
    rintro (hmem | hmem | hmem)
    · exact absurd hmem (by decide)
    · exact hheader name rfl hmem
    · exact absurd hmem (by decide)
  | @record line r hread =>
    rw [Ini.Line.render, List.mem_append, List.mem_append]
    rintro (hmem | hmem | hmem)
    · exact hkey (hread.key_eq ▸ hmem)
    · cases hmark : r.mark with
      | assign =>
        rw [hmark] at hmem
        exact absurd hmem (by decide)
      | append =>
        rw [hmark] at hmem
        exact absurd hmem (by decide)
    · exact (hread.value_plain hcore).1 hmem

/-! ## Readable keys -/

theorem mem_documentLines {document : Document} {line : IniLine}
    (h : line ∈ documentLines document) (hrecord : line.isRecord = true) :
    line ∈ (membersRecords document).flatten := by
  refine (documentSections_perm document).mem_iff.mp ?_
  rw [← documentSections_records]
  exact List.mem_filter.mpr ⟨h, hrecord⟩

theorem documentLines_key {document : Document}
    (h : ∀ line ∈ (membersRecords document).flatten, 0x0A ∉ line.key) :
    ∀ line ∈ documentLines document, 0x0A ∉ line.key := by
  intro line hline
  cases hrecord : line.isRecord with
  | true => exact h line (mem_documentLines hline hrecord)
  | false =>
    cases line with
    | blank => exact List.not_mem_nil
    | header name => exact List.not_mem_nil
    | record key s => cases hrecord
    | element key s => cases hrecord

theorem IniLine.KeyReadable.unbroken {line : IniLine} (h : line.KeyReadable) :
    0x0A ∉ line.key := by
  cases line with
  | blank => exact List.not_mem_nil
  | header name => exact List.not_mem_nil
  | record key s => exact h.1
  | element key s => exact h.1

/-- Each line of a document with readable keys is of one line, and is read as itself. -/
theorem Renders.read (hcore : core.PrintsNumbers) {document : Document}
    (hreadable : IniReadable document) {line : IniLine} {rendered : Ini.Line}
    (h : Renders core line rendered) (hline : line ∈ documentLines document) :
    0x0A ∉ rendered.render ∧ Ini.readLine rendered.render = some rendered := by
  have hkeys := documentLines_key fun line hmem => (hreadable.keys line hmem).unbroken
  refine ⟨h.unbroken hcore (fun name hname => ?_) (hkeys line hline), ?_⟩
  · rw [hname] at hline
    exact (documentLines_header hline).2 hreadable.unbroken
  cases h with
  | blank => exact Ini.readLine_blank
  | header name => exact Ini.readLine_header name
  | record hread =>
    have hplain := hread.value_plain hcore
    obtain ⟨-, hends⟩ :=
      hread.keyReadable.mp (hreadable.keys line (mem_documentLines hline hread.isRecord))
    rw [Ini.readLine, if_neg (Ini.render_record_ne_nil _), if_neg hplain.not_isHeader,
      Ini.readRecord_render hends, Option.map_some]

theorem Renders.blank_iff {line : IniLine} {rendered : Ini.Line} (h : Renders core line rendered) :
    line = .blank ↔ rendered = .blank := by
  cases h with
  | blank => exact ⟨fun _ => rfl, fun _ => rfl⟩
  | header name => exact ⟨nofun, nofun⟩
  | record hread =>
    refine ⟨fun hblank => ?_, nofun⟩
    rw [hblank] at hread
    exact hread.elim

theorem renders_nonblank {lines : List IniLine} {rendered : List Ini.Line}
    (h : List.Forall₂ (Renders core) lines rendered) : List.Forall₂ (Renders core)
      (lines.filter (· ≠ .blank)) (rendered.filter (· ≠ .blank)) := by
  induction h with
  | nil => exact .nil
  | @cons line read lines rendered hline _ ih =>
    by_cases hblank : line = .blank
    · have hread := hline.blank_iff.mp hblank
      rw [List.filter_cons_of_neg (by simp [hblank]), List.filter_cons_of_neg (by simp [hread])]
      exact ih
    · have hread := mt hline.blank_iff.mpr hblank
      rw [List.filter_cons_of_pos (by simp [hblank]), List.filter_cons_of_pos (by simp [hread])]
      exact .cons hline ih

/-- The lines of records are renderings of records. -/
theorem renders_records {lines : List IniLine} {rendered : List Ini.Line}
    (h : List.Forall₂ (Renders core) lines rendered) (hlines : ∀ line ∈ lines, line.isRecord = true) :
    ∃ records, rendered = records.map .record ∧ List.Forall₂ (IsRead core) lines records := by
  induction h with
  | nil => exact ⟨[], rfl, .nil⟩
  | cons hline _ ih =>
    obtain ⟨hrecord, hrest⟩ := List.forall_mem_cons.mp hlines
    obtain ⟨records, rfl, hrecords⟩ := ih hrest
    cases hline with
    | blank => cases hrecord
    | header name => cases hrecord
    | record hread => exact ⟨_ :: records, rfl, .cons hread hrecords⟩

theorem forall₂_append_left {α β : Type} {R : α → β → Prop} {first more : List α} {l : List β}
    (h : List.Forall₂ R (first ++ more) l) :
    ∃ l₁ l₂, l = l₁ ++ l₂ ∧ List.Forall₂ R first l₁ ∧ List.Forall₂ R more l₂ := by
  induction first generalizing l with
  | nil => exact ⟨[], l, rfl, .nil, h⟩
  | cons a first ih =>
    obtain ⟨b, rest, hab, hrest, rfl⟩ := List.forall₂_cons_left_iff.mp h
    obtain ⟨l₁, l₂, rfl, hfirst, hmore⟩ := ih hrest
    exact ⟨b :: l₁, l₂, rfl, .cons hab hfirst, hmore⟩

/-- Where the lines are those of sections, so are their renderings. -/
theorem renders_sections {listed : List (List Bytes × List IniLine)} {rendered : List Ini.Line}
    (h : List.Forall₂ (Renders core) (listed.flatMap sectionLines) rendered)
    (hlisted : ∀ s ∈ listed, ∀ line ∈ s.2, line.isRecord = true) :
    ∃ sections, rendered = sections.flatMap Ini.Section.lines ∧
      List.Forall₂ (IsSection core) listed sections := by
  induction listed generalizing rendered with
  | nil =>
    cases h
    exact ⟨[], rfl, .nil⟩
  | cons s listed ih =>
    obtain ⟨hs, hrest⟩ := List.forall_mem_cons.mp hlisted
    obtain ⟨path, lines⟩ := s
    rw [List.flatMap_cons] at h
    obtain ⟨first, more, rfl, hfirst, hmore⟩ := forall₂_append_left h
    obtain ⟨sections, rfl, hsections⟩ := ih hmore hrest
    obtain ⟨head, inside, rfl, hhead, hinside⟩ := forall₂_append_left hfirst
    obtain ⟨records, rfl, hrecords⟩ := renders_records hinside hs
    refine ⟨(sectionName path, records) :: sections, ?_, .cons ⟨rfl, hrecords⟩ hsections⟩
    refine congrArg (· ++ sections.flatMap Ini.Section.lines) (congrArg (· ++ _) ?_)
    -- the root has no header, and every other section has its own
    by_cases hpath : path = []
    · rw [if_pos hpath] at hhead
      rw [sectionName, if_pos hpath]
      exact List.forall₂_nil_left_iff.mp hhead
    · rw [if_neg hpath] at hhead
      rw [sectionName, if_neg hpath]
      obtain ⟨line, rest, hline, hrest, rfl⟩ := List.forall₂_cons_left_iff.mp hhead
      obtain rfl := List.forall₂_nil_left_iff.mp hrest
      cases hline with
      | header name => rfl
      | record hread => exact hread.elim

theorem sections_names {listed : List (List Bytes × List IniLine)} {sections : List Ini.Section}
    (h : List.Forall₂ (IsSection core) listed sections) :
    sections.map Prod.fst = (listed.map Prod.fst).map sectionName := by
  induction h with
  | nil => rfl
  | cons hs _ ih => rw [List.map_cons, List.map_cons, List.map_cons, hs.1, ih]

/-- A text of the lines of a document with readable keys is read as its sections. -/
theorem readSections_of_readable (hcore : core.PrintsNumbers) {document : Document}
    (hreadable : IniReadable document) {text : Bytes}
    (htext : AreIniLines core (documentLines document) text) : ∃ sections,
      Ini.readSections text = some sections ∧
        List.Forall₂ (IsSection core) (documentSections document) sections := by
  obtain ⟨rendered, hrendered, rfl⟩ := htext.renders
  have hread : ∀ read ∈ rendered, 0x0A ∉ read.render ∧ Ini.readLine read.render = some read := by
    intro read hmem
    obtain ⟨i, hi, rfl⟩ := List.getElem_of_mem hmem
    have hi' : i < (documentLines document).length := by rwa [hrendered.length_eq]
    exact Renders.read hcore hreadable ((List.forall₂_iff_get.mp hrendered).2 i hi' hi)
      (List.getElem_mem hi')
  -- each line is read as itself
  have hlines : (rendered.map Ini.Line.render).mapM Ini.readLine = some rendered := by
    refine Ini.mapM_readLine_iff.mpr (List.forall₂_map_left_iff.mpr ?_)
    exact List.forall₂_same.mpr fun read hmem => (hread read hmem).2
  rw [Ini.readSections_renderLines fun read hmem => (hread read hmem).1, hlines, Option.map_some]
  have hnonblank := renders_nonblank hrendered
  rw [documentLines_sections hreadable.named] at hnonblank
  obtain ⟨sections, hsections, hall⟩ :=
    renders_sections hnonblank (documentSections_isRecord document)
  -- the first section is that of the root, and the others have names
  obtain ⟨root, blocks, hroot, hblocks, rfl⟩ := List.forall₂_cons_left_iff.mp hall
  obtain ⟨name, records⟩ := root
  obtain rfl : name = none := hroot.1
  have hnames : ∀ s ∈ blocks, s.1 ≠ none := by
    have hnodup := hreadable.distinct
    have hmapped := sections_names hall
    rw [documentPaths, ← hmapped] at hnodup
    intro s hs hnone
    have hmem : none ∈ blocks.map Prod.fst := List.mem_map.mpr ⟨s, hs, hnone⟩
    exact (List.nodup_cons.mp hnodup).1 hmem
  refine ⟨(none, records) :: blocks, congrArg some ?_, hall⟩
  have hgather : Ini.gather none [] rendered = (none, [] ++ records) :: blocks :=
    Ini.gather_of_lines hnames hsections
  rwa [List.nil_append] at hgather

/-! ## Keys that are read -/

/-- How much of the lines is keys. -/
def keysLength (lines : List IniLine) : Nat := (lines.map fun line => line.key.length).sum

def readKeysLength (lines : List Ini.Line) : Nat := (lines.map fun line => line.key.length).sum

theorem sum_filter {α : Type} (p : α → Bool) (f : α → Nat) {l : List α}
    (h : ∀ a ∈ l, p a = false → f a = 0) : ((l.filter p).map f).sum = (l.map f).sum := by
  induction l with
  | nil => rfl
  | cons a l ih =>
    obtain ⟨ha, hl⟩ := List.forall_mem_cons.mp h
    cases hp : p a with
    | true => rw [List.filter_cons_of_pos hp, List.map_cons, List.map_cons, List.sum_cons,
        List.sum_cons, ih hl]
    | false => rw [List.filter_cons_of_neg (by simp [hp]), List.map_cons, List.sum_cons, ha hp,
        Nat.zero_add, ih hl]

/-- Where none is larger and the sums are equal, all are equal. -/
theorem forall₂_eq_of_sum_eq {α β : Type} {f : α → Nat} {g : β → Nat} {l : List α} {l' : List β}
    (h : List.Forall₂ (fun a b => g b ≤ f a) l l') (hsum : (l'.map g).sum = (l.map f).sum) :
    List.Forall₂ (fun a b => g b = f a) l l' := by
  have hle : ∀ {l : List α} {l' : List β}, List.Forall₂ (fun a b => g b ≤ f a) l l' →
      (l'.map g).sum ≤ (l.map f).sum := by
    intro l l' h
    induction h with
    | nil => exact le_rfl
    | cons hab _ ih =>
      rw [List.map_cons, List.map_cons, List.sum_cons, List.sum_cons]
      exact Nat.add_le_add hab ih
  induction h with
  | nil => exact .nil
  | cons hab hrest ih =>
    rw [List.map_cons, List.map_cons, List.sum_cons, List.sum_cons] at hsum
    have hmore := hle hrest
    exact .cons (by omega) (ih (by omega))

/-- The keys of a document are as long as those in its lines. -/
theorem keysLength_documentLines (document : Document) :
    keysLength (documentLines document) = keysLength (membersRecords document).flatten := by
  have hzero : ∀ line ∈ documentLines document, line.isRecord = false → line.key.length = 0 := by
    intro line _ hline
    cases line with
    | blank => rfl
    | header name => rfl
    | record key s => cases hline
    | element key s => cases hline
  rw [keysLength, ← sum_filter IniLine.isRecord _ hzero, documentSections_records]
  exact ((documentSections_perm document).map _).sum_eq

theorem readKeysLength_records {lines : List IniLine} {records : List Ini.Record}
    (h : List.Forall₂ (IsRead core) lines records) :
    readKeysLength (records.map .record) = keysLength lines := by
  induction h with
  | nil => rfl
  | cons hread _ ih =>
    rw [readKeysLength, keysLength] at ih
    rw [readKeysLength, keysLength, List.map_cons, List.map_cons, List.map_cons, List.sum_cons,
      List.sum_cons, ih, ← hread.key_eq]
    rfl

/-- The keys that are read in the sections of a document are as long as its own. -/
theorem readKeysLength_sections {listed : List (List Bytes × List IniLine)}
    {sections : List Ini.Section} (h : List.Forall₂ (IsSection core) listed sections) :
    readKeysLength (sections.flatMap Ini.Section.lines) =
      keysLength (listed.flatMap Prod.snd) := by
  induction h with
  | nil => rfl
  | @cons s read listed sections hs _ ih =>
    have hheader : readKeysLength (Ini.Section.lines read) =
        readKeysLength (read.2.map .record) := by
      obtain ⟨name, records⟩ := read
      cases name with
      | none => rfl
      | some name => exact Nat.zero_add _
    have hsection := hheader.trans (readKeysLength_records hs.2)
    rw [readKeysLength, keysLength] at hsection ih
    rw [readKeysLength, keysLength, List.flatMap_cons, List.flatMap_cons, List.map_append,
      List.map_append, List.sum_append, List.sum_append, hsection, ih]

/-- Where the names and keys that are read are of one line, so are those of the sections. -/
theorem unbroken_of_sections {listed : List (List Bytes × List IniLine)}
    {sections : List Ini.Section} (h : List.Forall₂ (IsSection core) listed sections)
    (hunbroken : ∀ line ∈ sections.flatMap Ini.Section.lines, line.Unbroken) :
    (∀ path ∈ listed.map Prod.fst, ∀ key ∈ path, 0x0A ∉ key) ∧
      ∀ line ∈ listed.flatMap Prod.snd, 0x0A ∉ line.key := by
  induction h with
  | nil => exact ⟨fun _ hmem => absurd hmem List.not_mem_nil,
      fun _ hmem => absurd hmem List.not_mem_nil⟩
  | @cons s read listed sections hs _ ih =>
    rw [List.flatMap_cons, List.forall_mem_append] at hunbroken
    obtain ⟨hpaths, hkeys⟩ := ih hunbroken.2
    obtain ⟨path, lines⟩ := s
    obtain ⟨hname, hrecords⟩ := hs
    refine ⟨List.forall_mem_cons.mpr ⟨fun key hkey hmem => ?_, hpaths⟩, ?_⟩
    · -- the keys of a block are in its name
      have hpath : path ≠ [] := List.ne_nil_of_mem hkey
      rw [sectionName, if_neg hpath] at hname
      have hheader : Ini.Line.header (dotJoin path) ∈ Ini.Section.lines read := by
        rw [Ini.Section.lines, hname]
        exact List.mem_append_left _ List.mem_cons_self
      exact hunbroken.1 _ hheader (mem_dotJoin hkey hmem)
    · rw [List.flatMap_cons, List.forall_mem_append]
      refine ⟨fun line hline => ?_, hkeys⟩
      obtain ⟨i, hi, rfl⟩ := List.getElem_of_mem hline
      have hi' : i < read.2.length := by rwa [← hrecords.length_eq]
      have hread := (List.forall₂_iff_get.mp hrecords).2 i hi hi'
      have hmem : Ini.Line.record (read.2[i]) ∈ Ini.Section.lines read :=
        List.mem_append_right _ (List.mem_map.mpr ⟨_, List.getElem_mem hi', rfl⟩)
      have hclean : 0x0A ∉ (read.2[i]).key := hunbroken.1 _ hmem
      have hkey : (read.2[i]).key = (lines[i]).key := hread.key_eq
      rwa [hkey] at hclean

/-- What is read of a text is read of its lines, one by one. -/
theorem readSections_eq_some {lines : List Ini.Line} {sections : List Ini.Section}
    (hlines : ∀ line ∈ lines, 0x0A ∉ line.render)
    (h : Ini.readSections (Ini.renderLines lines) = some sections) : ∃ read,
      List.Forall₂ (fun line r => Ini.readLine line.render = some r) lines read ∧
      sections.flatMap Ini.Section.lines = read.filter (· ≠ .blank) := by
  rw [Ini.readSections_renderLines hlines] at h
  obtain ⟨read, hread, rfl⟩ := Option.map_eq_some_iff.mp h
  refine ⟨read, List.forall₂_map_left_iff.mp (Ini.mapM_readLine_iff.mp hread), ?_⟩
  rw [Ini.gather_lines]
  rfl

/-- Read by themselves, lines have no longer keys than they are the renderings of. -/
theorem Renders.key_le (hcore : core.PrintsNumbers) {line : IniLine} {rendered read : Ini.Line}
    (h : Renders core line rendered) (hread : Ini.readLine rendered.render = some read) :
    read.key.length ≤ line.key.length := by
  cases h with
  | blank =>
    cases Ini.readLine_blank.symm.trans hread
    exact le_rfl
  | header name =>
    cases (Ini.readLine_header name).symm.trans hread
    exact le_rfl
  | record hline =>
    obtain ⟨r', -, hread', hle⟩ := Ini.readLine_record (hline.value_plain hcore).not_isHeader
    cases hread'.symm.trans hread
    rwa [← hline.key_eq]

/-- Where a key is read as long as it is, it can be read. -/
theorem Renders.keyReadable (hcore : core.PrintsNumbers) {line : IniLine}
    {rendered read : Ini.Line} (h : Renders core line rendered)
    (hread : Ini.readLine rendered.render = some read)
    (hlength : read.key.length = line.key.length) (hclean : 0x0A ∉ line.key) :
    line.KeyReadable := by
  cases h with
  | blank => exact trivial
  | header name => exact trivial
  | @record line r hline =>
    obtain ⟨r', hrecord, hread', -⟩ :=
      Ini.readLine_record (hline.value_plain hcore).not_isHeader
    cases hread'.symm.trans hread
    rw [← hline.key_eq] at hlength hclean
    exact hline.keyReadable.mpr ⟨hclean, (Ini.readRecord_render_iff hrecord).mp hlength⟩

theorem readKeysLength_filter (read : List Ini.Line) :
    readKeysLength (read.filter (· ≠ .blank)) = readKeysLength read := by
  refine sum_filter _ _ fun line _ hblank => ?_
  obtain rfl : line = .blank := by simpa using hblank
  rfl

/-- What a line is read as. -/
def ReadAs (core : Core σ) (line : IniLine) (read : Ini.Line) : Prop :=
  ∃ rendered, Renders core line rendered ∧ Ini.readLine rendered.render = some read

theorem readAs_of_renders {lines : List IniLine} {rendered read : List Ini.Line}
    (h : List.Forall₂ (Renders core) lines rendered)
    (hread : List.Forall₂ (fun line r => Ini.readLine line.render = some r) rendered read) :
    List.Forall₂ (ReadAs core) lines read := by
  induction h generalizing read with
  | nil =>
    cases hread
    exact .nil
  | cons hline _ ih =>
    obtain ⟨r, rest, hr, hrest, rfl⟩ := List.forall₂_cons_left_iff.mp hread
    exact .cons ⟨_, hline, hr⟩ (ih hrest)

/-- If the keys that are read are as long as those in the lines, they can all be read. -/
theorem keyReadable_of_length (hcore : core.PrintsNumbers) {lines : List IniLine}
    {read : List Ini.Line} (h : List.Forall₂ (ReadAs core) lines read)
    (hlength : readKeysLength read = keysLength lines) (hclean : ∀ line ∈ lines, 0x0A ∉ line.key) :
    ∀ line ∈ lines, line.KeyReadable := by
  have hle : List.Forall₂ (fun (line : IniLine) (r : Ini.Line) => r.key.length ≤ line.key.length)
      lines read := by
    refine h.imp fun line r hr => ?_
    obtain ⟨rendered, hrendered, hread⟩ := hr
    exact hrendered.key_le hcore hread
  have hsame := forall₂_eq_of_sum_eq hle hlength
  intro line hline
  obtain ⟨i, hi, rfl⟩ := List.getElem_of_mem hline
  have hi' : i < read.length := by rwa [← h.length_eq]
  obtain ⟨rendered, hrendered, hread⟩ := (List.forall₂_iff_get.mp h).2 i hi hi'
  exact hrendered.keyReadable hcore hread ((List.forall₂_iff_get.mp hsame).2 i hi hi')
    (hclean _ hline)

/-- No line of a document is read as a header without a name. -/
theorem ReadAs.named (hcore : core.PrintsNumbers) {document : Document} {line : IniLine}
    (hline : line ∈ documentLines document) : ¬ReadAs core line (.header []) := by
  rintro ⟨rendered, hrendered, hread⟩
  cases hrendered with
  | blank => cases Ini.readLine_blank.symm.trans hread
  | header name =>
    cases (Ini.readLine_header name).symm.trans hread
    exact (documentLines_header hline).1 rfl
  | record h =>
    obtain ⟨r', -, hread', -⟩ := Ini.readLine_record (h.value_plain hcore).not_isHeader
    cases hread'.symm.trans hread

/-- A document of whose lines its sections are read has readable keys. -/
theorem readable_of_attributes (hcore : core.PrintsNumbers) {document document' : Document}
    (horder : RearrangedDocument List.Perm document document') {text : Bytes}
    (htext : AreIniLines core (documentLines document') text) (h : Attributes core document text) :
    IniReadable document := by
  obtain ⟨sections, document'', hread, horder', hsections, hnodup⟩ := h
  obtain ⟨rendered, hrendered, rfl⟩ := htext.renders
  have hpaths := horder.paths_perm fun _ _ => id
  have hpaths' := horder'.paths_perm fun _ _ => id
  have hrecords := (horder.records_perm fun _ _ => id).flatten
  have hrecords' := (horder'.records_perm fun _ _ => id).flatten
  -- the names and keys that are read are of one line, so that all lines are
  obtain ⟨hunbroken, hkeys⟩ := unbroken_of_sections hsections (Ini.readSections_unbroken hread)
  have hclean : ∀ line ∈ documentLines document', 0x0A ∉ line.key := by
    refine documentLines_key fun line hline => hkeys line ?_
    refine (documentSections_perm document'').mem_iff.mpr (hrecords'.mem_iff.mpr ?_)
    exact hrecords.mem_iff.mp hline
  have hlines : ∀ read ∈ rendered, 0x0A ∉ read.render := by
    intro read hmem
    obtain ⟨i, hi, rfl⟩ := List.getElem_of_mem hmem
    have hi' : i < (documentLines document').length := by rwa [hrendered.length_eq]
    refine ((List.forall₂_iff_get.mp hrendered).2 i hi' hi).unbroken hcore (fun name hname => ?_)
      (hclean _ (List.getElem_mem hi'))
    have hheader : .header name ∈ documentLines document' := by
      rw [← hname]
      exact List.getElem_mem hi'
    refine (documentLines_header hheader).2 fun path hpath => ?_
    exact hunbroken path (hpaths'.mem_iff.mpr (hpaths.mem_iff.mp hpath))
  obtain ⟨read, hpointwise, hnonblank⟩ := readSections_eq_some hlines hread
  have hreadAs := readAs_of_renders hrendered hpointwise
  -- no byte of a key is missing
  have hlength : readKeysLength read = keysLength (documentLines document') := by
    rw [← readKeysLength_filter, ← hnonblank, readKeysLength_sections hsections,
      keysLength_documentLines]
    exact (((documentSections_perm document'').trans (hrecords'.trans hrecords.symm)).map _).sum_eq
  have hreadable := keyReadable_of_length hcore hreadAs hlength hclean
  constructor
  · intro hmem
    have hname : some [] ∈ sections.map Prod.fst := by
      rw [sections_names hsections]
      exact List.mem_map.mpr ⟨[[]], hpaths'.mem_iff.mpr hmem, rfl⟩
    obtain ⟨s, hs, hfst⟩ := List.mem_map.mp hname
    have hheader : Ini.Line.header [] ∈ sections.flatMap Ini.Section.lines := by
      refine List.mem_flatMap.mpr ⟨s, hs, ?_⟩
      rw [Ini.Section.lines, hfst]
      exact List.mem_append_left _ List.mem_cons_self
    rw [hnonblank] at hheader
    obtain ⟨i, hi, hget⟩ := List.getElem_of_mem (List.mem_filter.mp hheader).1
    have hi' : i < (documentLines document').length := by rwa [hreadAs.length_eq]
    have hline := (List.forall₂_iff_get.mp hreadAs).2 i hi' hi
    rw [List.get_eq_getElem, List.get_eq_getElem, hget] at hline
    exact ReadAs.named hcore (List.getElem_mem hi') hline
  · have hnames := sections_names hsections
    rw [hnames] at hnodup
    exact (hpaths'.map _).nodup_iff.mp hnodup
  · exact fun path hpath => hunbroken path (hpaths'.mem_iff.mpr hpath)
  · intro line hline
    refine hreadable line ?_
    have hmem := hrecords.mem_iff.mpr hline
    rw [← (documentSections_perm document').mem_iff, ← documentSections_records] at hmem
    exact (List.mem_filter.mp hmem).1

/-- The values of a document are found where they belong, under their own keys, if and only if its
keys can be read. -/
theorem attributes_iff (hcore : core.PrintsNumbers) {document document' : Document}
    (horder : RearrangedDocument List.Perm document document') {text : Bytes}
    (htext : AreIniLines core (documentLines document') text) :
    Attributes core document text ↔ IniReadable document := by
  refine ⟨readable_of_attributes hcore horder htext, fun hreadable => ?_⟩
  have hreadable' := horder.readable hreadable
  obtain ⟨sections, hread, hsections⟩ := readSections_of_readable hcore hreadable' htext
  refine ⟨sections, document', hread, horder, hsections, ?_⟩
  rw [sections_names hsections]
  exact hreadable'.distinct

/-- Where the values of a document are found, its finite doubles have been formatted. -/
theorem Attributes.formatted {document : Document} {text : Bytes} (h : Attributes core document text)
    (hflat : membersFlat document = true) {bits : UInt64}
    (hmem : .float64 bits ∈ membersScalars document) (hfinite : isNonFinite bits = false) :
    ∃ world, (core.formatDouble 64 bits world).1 ≠ none := by
  obtain ⟨sections, document', -, horder, hsections, -⟩ := h
  have hflat' : membersFlat document' = true := by
    rw [horder.flat_eq fun _ _ => id, hflat]
  obtain ⟨line, hline, hscalar⟩ := line_membersScalars hflat' (horder.mem_scalars.mpr hmem)
  have hstored := (documentSections_perm document').mem_iff.mpr hline
  obtain ⟨s, hs, hlines⟩ := List.mem_flatMap.mp hstored
  obtain ⟨read, -, hrecords⟩ := exists_row hsections hs
  obtain ⟨r, hread⟩ := exists_row hrecords hlines
  cases line with
  | blank => cases hscalar
  | header name => cases hscalar
  | record key s =>
    cases hscalar
    exact hread.2.2.formatted hfinite
  | element key s =>
    cases hscalar
    exact hread.2.2.formatted hfinite

/-! ## Written documents -/

/-- If the export returns `true`, what it has put behind the output has every value of the document in
the section of its own block. -/
def AttributesIfTrue (core : Core σ) (output : σ → Bytes) (document : Document) (world : σ)
    (result : Except ExportStop Bool × σ) : Prop :=
  result.1 = .ok true →
    ∃ text, output result.2 = output world ++ text ∧ Attributes core document text

section

variable {output : σ → Bytes} {hash64 : Bytes → UInt64} {r : Reader} {document stored : Document}
  (hnumbers : core.PrintsNumbers) (hsort : Sorts core.sortWithCompare)
  (hfile : HoldsDocument hash64 r stored) (hstored : RearrangedDocument List.Perm document stored)
  {levels : Nat} (hlevels : membersDepth stored ≤ levels)

include hnumbers hsort hfile hstored hlevels

/-- Where the finite doubles of the document in a file are formatted, it is all about its keys. -/
theorem exportIniEx_attributes (hcore : core.Accepts output) (hdoubles : core.FormatsDoubles document)
    (how : Option ExportOptions) (world : σ) :
    (IniReadable document →
      AttributesIfTrue core output document world (exportIniEx core levels r how world)) ∧
    (core.Grants → (exportIniEx core levels r how world).1 = .ok (membersFlat document) ∧
      (AttributesIfTrue core output document world (exportIniEx core levels r how world) ↔
        (membersFlat document = true → IniReadable document))) := by
  obtain ⟨result, world', document', hend, horder, hlines, hreturns⟩ :=
    exportIniEx_formats hcore hsort hfile hlevels (hdoubles.rearranged hstored) how world
  have hperm : RearrangedDocument List.Perm document document' :=
    hstored.trans (horder.mono fun _ _ => exportOrder.perm)
  have hflat : membersFlat stored = membersFlat document := hstored.flat_eq fun _ _ => id
  rw [hflat] at hlines hreturns
  rw [hend]
  have hwhole : result = true → ∃ text, output world' = output world ++ text ∧
      (Attributes core document text ↔ IniReadable document) := by
    intro htrue
    obtain ⟨-, text, houtput, htext⟩ := hlines htrue
    exact ⟨text, houtput, attributes_iff hnumbers hperm htext⟩
  have hreadable : IniReadable document →
      AttributesIfTrue core output document world (.ok result, world') := by
    intro hreadable htrue
    obtain ⟨text, houtput, hiff⟩ := hwhole (Except.ok.inj htrue)
    exact ⟨text, houtput, hiff.mpr hreadable⟩
  refine ⟨hreadable, fun hgrants => ?_⟩
  have hresult : result = membersFlat document :=
    Bool.eq_iff_iff.mpr ⟨fun htrue => (hlines htrue).1, fun hall => hreturns hall hgrants⟩
  refine ⟨congrArg Except.ok hresult, fun hattributes hall => ?_, fun hkeys htrue => ?_⟩
  · -- without containers in arrays, the export returns `true`
    have htrue : result = true := hresult.trans hall
    obtain ⟨text, houtput, hiff⟩ := hwhole htrue
    obtain ⟨text', houtput', htext⟩ := hattributes (congrArg Except.ok htrue)
    obtain rfl := List.append_cancel_left (houtput.symm.trans houtput')
    exact hiff.mp htext
  · exact hreadable (hkeys (hresult.symm.trans (Except.ok.inj htrue))) htrue

/-- Where nothing but doubles is refused, it is about the doubles as well. -/
theorem exportIniEx_attributes_served (hcore : core.Accepts output) (hserves : core.ServesOthers)
    (hbits : core.FormatsByBits) (hflat : membersFlat document = true)
    (how : Option ExportOptions) (world : σ) :
    AttributesIfTrue core output document world (exportIniEx core levels r how world) ↔
      core.FormatsDoubles document ∧ IniReadable document := by
  have hformatted := fun hdoubles =>
    exportIniEx_attributes hnumbers hsort hfile hstored hlevels hcore hdoubles how world
  refine ⟨fun hattributes => ?_, fun h => (hformatted h.1).1 h.2⟩
  -- the export returns `true`, so that all doubles have been formatted
  have hstoredFlat : membersFlat stored = true := by
    rw [hstored.flat_eq fun _ _ => id, hflat]
  obtain ⟨text, -, htext⟩ := hattributes
    (exportIniEx_served hserves hsort hfile hlevels hstoredFlat how world)
  have hdoubles : core.FormatsDoubles document := by
    intro bits hmem hfinite world'
    obtain ⟨world₀, hsome⟩ := htext.formatted hflat hmem hfinite
    exact hbits bits world₀ world' hsome
  exact ⟨hdoubles, ((hformatted hdoubles).2 hserves.grants).2.mp hattributes hflat⟩

end

/-- The INI export of a file that a writer returns. If the finite doubles of the document are
formatted and its keys can be read, a text that is written with `true` attributes every value to its
own block; where nothing is refused, this is so only if the keys can be read or an array has a
container in it. Where nothing but doubles is refused, and no array has a container in it, it is so
only if the doubles are formatted as well. -/
theorem ini_export_attributes_iff {core : Core σ} {output : σ → Bytes}
    (hcore : core.Accepts output) (hnumbers : core.PrintsNumbers)
    (hsort : Sorts core.sortWithCompare) {env : Env} {options : Option WriterOptions}
    {ops : List Op} {w : Writer} (hrun : (Writer.create options).runs env ops = some w)
    (hclosed : w.currentScope = none) (how : Option ExportOptions) :
    ∃ document : Document, Builder.empty.run ops = some ⟨document, []⟩ ∧
      (documentSize env.hash64 document < 2 ^ 32 →
        w.Finalizes env document fun b => ∃ r enough, openBuffer true b = .ok r ∧
          ∀ levels ≥ enough, ∀ world,
            (core.FormatsDoubles document →
              (IniReadable document → AttributesIfTrue core output document world
                (exportIniEx core levels r how world)) ∧
              (core.Grants →
                (exportIniEx core levels r how world).1 = .ok (membersFlat document) ∧
                (AttributesIfTrue core output document world
                    (exportIniEx core levels r how world) ↔
                  (membersFlat document = true → IniReadable document)))) ∧
            (core.ServesOthers → core.FormatsByBits → membersFlat document = true →
              (AttributesIfTrue core output document world
                  (exportIniEx core levels r how world) ↔
                core.FormatsDoubles document ∧ IniReadable document))) := by
  obtain ⟨document, hb, hwritten⟩ := runs_written hrun hclosed
  refine ⟨document, hb, fun hsize => ?_⟩
  refine (hwritten hsize).mono fun b hbytes =>
    ⟨_, membersDepth document, openBuffer_document hbytes, ?_⟩
  intro levels hlevels world
  have hdepth : membersDepth (document.inFileOrder env.hash64) ≤ levels := by
    rwa [membersDepth_document]
  have hstored := rearrangedDocument_inFileOrder env.hash64 document
  have hfile := holdsDocument_document hbytes hsize
  constructor
  · intro hdoubles
    exact exportIniEx_attributes hnumbers hsort hfile hstored hdepth hcore hdoubles how world
  · intro hserves hbits hflat
    exact exportIniEx_attributes_served hnumbers hsort hfile hstored hdepth hcore hserves hbits hflat
      how world

theorem plainCore_printsNumbers : plainCore.PrintsNumbers where
  formatSigned value world text world' hrun := by
    cases hrun
    rfl
  formatUnsigned value world text world' hrun := by
    cases hrun
    rfl
  formatHexadecimal c hcontrol world text world' hrun := by
    cases hrun
    rfl
  formatDouble bits hfinite world text world' hrun := by
    obtain ⟨token, next, htoken, hnumber, -⟩ := plainCore_works.formatDouble bits world hfinite
    cases htoken.symm.trans hrun
    exact hnumber

/-- The core that prints only one `double`. -/
def fewFloatsCore : Core Bytes :=
  { plainCore with
    formatDouble := fun size bits written =>
      if bits = 0x3FF8000000000000 then plainCore.formatDouble size bits written
      else (none, written) }

theorem fewFloatsCore_accepts : fewFloatsCore.Accepts id where
  writeBytes := plainCore_appends.writeBytes
  allocate _ _ := rfl
  formatSigned _ _ := rfl
  formatUnsigned _ _ := rfl
  formatHexadecimal _ _ := rfl
  formatDouble bits hfinite written := by
    unfold fewFloatsCore
    dsimp only
    split
    · rfl
    · rfl

theorem fewFloatsCore_grants : fewFloatsCore.Grants where
  writeBytes := plainCore_grants.writeBytes
  allocate := plainCore_grants.allocate
  formatSigned := plainCore_grants.formatSigned
  formatUnsigned := plainCore_grants.formatUnsigned
  formatHexadecimal := plainCore_grants.formatHexadecimal

theorem fewFloatsCore_printsNumbers : fewFloatsCore.PrintsNumbers where
  formatSigned := plainCore_printsNumbers.formatSigned
  formatUnsigned := plainCore_printsNumbers.formatUnsigned
  formatHexadecimal := plainCore_printsNumbers.formatHexadecimal
  formatDouble bits hfinite written text written' hrun := by
    unfold fewFloatsCore at hrun
    dsimp only at hrun
    by_cases hbits : bits = 0x3FF8000000000000
    · rw [if_pos hbits] at hrun
      exact plainCore_printsNumbers.formatDouble bits hfinite written text written' hrun
    · rw [if_neg hbits] at hrun
      cases hrun

/-- A block with an integer and an array of a `double` and a NaN, and a scalar at the root, with a
formatter that knows no other `double`. -/
theorem ini_export_attributes_iff_section :
    ∃ w b v r enough, (Writer.create none).runs (.succeeding fun key => UInt64.ofNat key.length)
        [.beginBlock (.data [0x73]), .setInt64 (.data [0x70]) 80, .beginArray (.data [0x78]),
          .appendFloat64 0x3FF8000000000000, .appendFloat64 0x7FF8000000000000, .endArray,
          .endBlock, .setNull (.data [0x6E])] = some w ∧
      finalizeToBuffer (.succeeding fun key => UInt64.ofNat key.length) w =
        .returned b.bytes v ∧
      openBuffer true b = .ok r ∧
      ∀ levels ≥ enough, ∀ world, ∃ text,
        exportIniEx fewFloatsCore levels r none world = (.ok true, world ++ text) ∧
        Attributes fewFloatsCore [([0x73], .block [([0x70], .scalar (.int64 80)),
          ([0x78], .array [.scalar (.float64 0x3FF8000000000000),
            .scalar (.float64 0x7FF8000000000000)])]), ([0x6E], .scalar .null)] text := by
  obtain ⟨w, hrun, hclosed, hworkers⟩ : ∃ w, (Writer.create none).runs
      (.succeeding fun key => UInt64.ofNat key.length)
      [.beginBlock (.data [0x73]), .setInt64 (.data [0x70]) 80, .beginArray (.data [0x78]),
        .appendFloat64 0x3FF8000000000000, .appendFloat64 0x7FF8000000000000, .endArray,
        .endBlock, .setNull (.data [0x6E])] = some w ∧ w.currentScope = none ∧
        WorkersFit w.options.workerCount := ⟨_, rfl, rfl, by decide⟩
  obtain ⟨document, hb, hfile⟩ := ini_export_attributes_iff fewFloatsCore_accepts
    fewFloatsCore_printsNumbers plainCore_works.sortWithCompare hrun hclosed none
  cases hb
  -- the only finite double is one that the formatter takes
  have hdoubles : fewFloatsCore.FormatsDoubles [([0x73], .block [([0x70], .scalar (.int64 80)),
      ([0x78], .array [.scalar (.float64 0x3FF8000000000000),
        .scalar (.float64 0x7FF8000000000000)])]), ([0x6E], .scalar .null)] := by
    intro bits hmem hfinite world
    change .float64 bits ∈ [Scalar.int64 80, .float64 0x3FF8000000000000,
      .float64 0x7FF8000000000000, .null] at hmem
    simp only [List.mem_cons, List.not_mem_nil, Scalar.float64.injEq, reduceCtorEq, false_or,
      or_false] at hmem
    rcases hmem with rfl | rfl
    · exact Option.some_ne_none _
    · cases hfinite
  obtain ⟨b, v, hreturned, r, enough, hopen, hexport⟩ :=
    (hfile (by decide +kernel)).returned (Env.succeeding_succeeds _) hworkers
  refine ⟨w, b, v, r, enough, hrun, hreturned, hopen, fun levels hlevels world => ?_⟩
  have hreadable : IniReadable [([0x73], .block [([0x70], .scalar (.int64 80)),
      ([0x78], .array [.scalar (.float64 0x3FF8000000000000),
        .scalar (.float64 0x7FF8000000000000)])]), ([0x6E], .scalar .null)] := by
    constructor
    · decide
    · decide
    · decide
    · intro line hline
      fin_cases hline
      all_goals exact ⟨by decide, by decide⟩
  obtain ⟨hformatted, -⟩ := hexport levels hlevels world
  obtain ⟨hattributes, hgranted⟩ := hformatted hdoubles
  have htrue := (hgranted fewFloatsCore_grants).1
  obtain ⟨text, houtput, htext⟩ := hattributes hreadable htrue
  exact ⟨text, Prod.ext htrue houtput, htext⟩

/-- A block with the empty key behind another block, in the file and in the text: without a header
its scalar is read in the section of the other. -/
theorem not_attributes :
    ∃ w b v r enough, (Writer.create none).runs
        (.succeeding fun key => UInt64.ofNat (8 - key.length))
        [.beginBlock (.data [0x73]), .setInt64 (.data [0x70]) 80, .endBlock,
          .beginBlock (.data []), .setInt64 (.data [0x61]) 1, .endBlock] = some w ∧
      finalizeToBuffer (.succeeding fun key => UInt64.ofNat (8 - key.length)) w =
        .returned b.bytes v ∧
      openBuffer true b = .ok r ∧
      ∀ levels ≥ enough, ∃ text,
        exportIniEx plainCore levels r
          (some { indentSpaces := 2, sortKeys := false, asciiOnly := false }) [] =
            (.ok true, text) ∧
        Ini.readSections text = some [(none, []),
          (some [0x73], [⟨[0x70], .assign, [0x38, 0x30]⟩, ⟨[0x61], .assign, [0x31]⟩])] ∧
        ¬Attributes plainCore [([0x73], .block [([0x70], .scalar (.int64 80))]),
          ([], .block [([0x61], .scalar (.int64 1))])] text := by
  obtain ⟨w, hrun, hclosed, hworkers⟩ : ∃ w, (Writer.create none).runs
      (.succeeding fun key => UInt64.ofNat (8 - key.length))
      [.beginBlock (.data [0x73]), .setInt64 (.data [0x70]) 80, .endBlock,
        .beginBlock (.data []), .setInt64 (.data [0x61]) 1, .endBlock] = some w ∧
      w.currentScope = none ∧ WorkersFit w.options.workerCount := ⟨_, rfl, rfl, by decide⟩
  obtain ⟨document, hb, hwritten⟩ := runs_written hrun hclosed
  obtain rfl : document = [([0x73], .block [([0x70], .scalar (.int64 80))]),
      ([], .block [([0x61], .scalar (.int64 1))])] := by
    cases hb
    rfl
  obtain ⟨b, v, hreturned, hbytes⟩ :=
    (hwritten (by decide +kernel)).returned (Env.succeeding_succeeds _) hworkers
  refine ⟨w, b, v, _, 2, hrun, hreturned, openBuffer_document hbytes, fun levels hlevels => ?_⟩
  obtain ⟨result, text, document', hend, horder, hlines, hreturns⟩ :=
    exportIniEx_end plainCore_appends plainCore_works.sortWithCompare
      (holdsDocument_document hbytes (by decide +kernel))
      (membersDepth_document.trans_le (le_trans (by decide) hlevels))
      (some { indentSpaces := 2, sortKeys := false, asciiOnly := false }) []
  obtain rfl := hreturns rfl plainCore_grants
  obtain ⟨-, _, rfl, htext⟩ := hlines rfl
  -- the order of the export is that of the file
  obtain rfl : document' = [([0x73], .block [([0x70], .scalar (.int64 80))]),
      ([], .block [([0x61], .scalar (.int64 1))])] := by
    obtain ⟨_, ⟨_, _, rfl, ⟨_, _, rfl, ⟨_, _, rfl, rfl, rfl⟩, rfl⟩,
      _, _, rfl, ⟨_, _, rfl, ⟨_, _, rfl, rfl, rfl⟩, rfl⟩, rfl⟩, rfl⟩ := horder
    rfl
  refine ⟨text, hend, ?_, fun hattributes => ?_⟩
  · -- the only renderings of the lines
    have hthree : AreIniLines plainCore [.header [0x73], .record [0x70] (.int64 80),
        .record [0x61] (.int64 1)] text := htext
    obtain ⟨rendered, hrendered, rfl⟩ := hthree.renders
    have hdigits : ∀ {key : Bytes} {value : Int64} {r : Ini.Record},
        IsRead plainCore (.record key (.int64 value)) r →
          r = ⟨key, .assign, Json.decimalInt value.toInt⟩ := by
      intro key value r hread
      obtain ⟨hkey, hmark, world, world', hrun⟩ := hread
      have hvalue := plainCore_printsNumbers.formatSigned value world r.value world' hrun
      obtain ⟨key', mark, written⟩ := r
      dsimp only at hkey hmark hvalue
      rw [hkey, hmark, hvalue]
    obtain ⟨_, _, hheader, hrest, rfl⟩ := List.forall₂_cons_left_iff.mp hrendered
    obtain ⟨_, _, hfirst, hrest', rfl⟩ := List.forall₂_cons_left_iff.mp hrest
    obtain ⟨_, _, hsecond, hnone, rfl⟩ := List.forall₂_cons_left_iff.mp hrest'
    obtain rfl := List.forall₂_nil_left_iff.mp hnone
    cases hheader with
    | record hread => exact hread.elim
    | header =>
      cases hfirst with
      | record hfirst =>
        cases hsecond with
        | record hsecond =>
          rw [hdigits hfirst, hdigits hsecond]
          decide +kernel
  · have hrefl : RearrangedDocument List.Perm [([0x73], .block [([0x70], .scalar (.int64 80))]),
        ([], .block [([0x61], .scalar (.int64 1))])] [([0x73], .block
          [([0x70], .scalar (.int64 80))]), ([], .block [([0x61], .scalar (.int64 1))])] :=
      ⟨_, RearrangedMembers.refl List.Perm.refl _, .refl _⟩
    refine (readable_of_attributes plainCore_printsNumbers hrefl htext hattributes).named ?_
    decide

end Hrbl
