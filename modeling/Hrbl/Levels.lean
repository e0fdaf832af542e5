import Hrbl.DepthIni
import Hrbl.DepthYaml
import Hrbl.Lib.Approximation

/-!
# Levels of calls

What an export does depends on how deeply its calls may be nested only where that is not deep
enough. On a file whose nodes do not go around, calls that may be nested more deeply than the file
has bytes are always deep enough.
-/

namespace Hrbl

open Lib Lib.Outcome

variable {σ : Type}

/-! ## More levels -/

section

variable (core : Core σ) (options : Option ExportOptions) (r : Reader)

/-! ### JSON -/

section

variable {child child' : UInt64 → UInt32 → ExportM σ Unit}
  (hchild : ∀ offset depth, Approximates .overflow (child offset depth) (child' offset depth))

include hchild

theorem exportEntriesLoop_approximates (depth : UInt32) (first : Bool) (entries : List SortEntry) :
    Approximates .overflow (exportEntriesLoop core options r child depth first entries)
      (exportEntriesLoop core options r child' depth first entries) := by
  induction entries generalizing first with
  | nil => exact .refl _
  | cons entry entries ih =>
    have hvalue : Approximates .overflow
        (child entry.valueOffset depth >>= fun _ =>
          exportEntriesLoop core options r child depth false entries)
        (child' entry.valueOffset depth >>= fun _ =>
          exportEntriesLoop core options r child' depth false entries) :=
      (hchild _ depth).bind fun _ => ih false
    rw [exportEntriesLoop, exportEntriesLoop]
    refine .ite ?_ ?_
    · exact .bind (.refl _) fun _ => .bind (.refl _) fun _ => .bind (.refl _) fun _ =>
        .bind (.refl _) fun _ => .ite (.bind (.refl _) fun _ => hvalue)
          (.bind (.refl _) fun _ => hvalue)
    · exact .bind (.refl _) fun _ => .bind (.refl _) fun _ =>
        .ite (.bind (.refl _) fun _ => hvalue) (.bind (.refl _) fun _ => hvalue)

theorem exportElementsLoop_approximates (depth : UInt32) (first : Bool) (count : Nat)
    (offset : UInt64) :
    Approximates .overflow (exportElementsLoop core options r child depth first count offset)
      (exportElementsLoop core options r child' depth first count offset) := by
  induction count generalizing first offset with
  | zero => exact .refl _
  | succ count ih =>
    rw [exportElementsLoop, exportElementsLoop]
    refine .ite ?_ ?_
    · exact .bind (.refl _) fun _ => .bind (.refl _) fun _ => .bind (.refl _) fun _ =>
        .bind (.refl _) fun c => (hchild c depth).bind fun _ => ih false _
    · exact .bind (.refl _) fun _ => .bind (.refl _) fun c =>
        (hchild c depth).bind fun _ => ih false _

theorem exportBlock_approximates (offset : UInt64) (depth : UInt32) :
    Approximates .overflow (exportBlock core options r child offset depth)
      (exportBlock core options r child' offset depth) :=
  .bind (.refl _) fun _ => .ite (.refl _) <|
    .bind (.refl _) fun _ => .bind (.refl _) fun _ => .bind (.refl _) fun _ =>
    .bind (.refl _) fun _ => .bind (.refl _) fun _ =>
    .bind (exportEntriesLoop_approximates core options r hchild _ _ _) fun _ => .refl _

theorem exportArray_approximates (offset : UInt64) (depth : UInt32) :
    Approximates .overflow (exportArray core options r child offset depth)
      (exportArray core options r child' offset depth) :=
  .bind (.refl _) fun _ => .ite (.refl _) <|
    .bind (.refl _) fun _ => .bind (.refl _) fun _ =>
    .bind (exportElementsLoop_approximates core options r hchild _ _ _ _) fun _ => .refl _

end

theorem exportValue_approximates (levels : Nat) (offset : UInt64) (depth : UInt32) :
    Approximates .overflow (exportValue core options r levels offset depth)
      (exportValue core options r (levels + 1) offset depth) := by
  induction levels generalizing offset depth with
  | zero => exact .throw _
  | succ levels ih =>
    refine .bind (.refl _) fun kind => ?_
    cases kind with
    | block => exact exportBlock_approximates core options r ih offset depth
    | array => exact exportArray_approximates core options r ih offset depth
    | null => exact .refl _
    | false => exact .refl _
    | true => exact .refl _
    | int64 => exact .refl _
    | uint64 => exact .refl _
    | float64 => exact .refl _
    | string => exact .refl _

theorem exportRoots_approximates (levels : Nat) :
    Approximates .overflow (exportRoots core options r levels)
      (exportRoots core options r (levels + 1)) :=
  .ite (.refl _) <| .bind (.refl _) fun _ => .bind (.refl _) fun _ => .bind (.refl _) fun _ =>
    .bind (.refl _) fun _ => .bind (.refl _) fun _ =>
    .bind (exportEntriesLoop_approximates core options r
      (exportValue_approximates core options r levels) _ _ _) fun _ => .refl _

/-! ### YAML -/

/-- An attempt stops with what is attempted. -/
theorem attempt_approximates {m m' : ExportM σ Unit} (h : Approximates .overflow m m') :
    Approximates .overflow (attempt m) (attempt m') := by
  intro s
  rw [attempt, attempt]
  rcases h s with ⟨s', hstop⟩ | heq
  · rw [hstop]
    exact .inl ⟨s', rfl⟩
  · rw [heq]
    exact .inr rfl

variable (lib : LibYaml σ)

section

variable {child child' : UInt64 → ExportM σ Unit}
  (hchild : ∀ offset, Approximates .overflow (child offset) (child' offset))

include hchild

theorem yamlEntriesLoop_approximates (entries : List YamlSortEntry) :
    Approximates .overflow (yamlEntriesLoop core lib r child entries)
      (yamlEntriesLoop core lib r child' entries) := by
  induction entries with
  | nil => exact .refl _
  | cons entry entries ih =>
    exact .bind (.refl _) fun _ => (hchild _).bind fun _ => ih

theorem yamlElementsLoop_approximates (count : Nat) (offset : UInt64) :
    Approximates .overflow (yamlElementsLoop r child count offset)
      (yamlElementsLoop r child' count offset) := by
  induction count generalizing offset with
  | zero => exact .refl _
  | succ count ih => exact .bind (.refl _) fun c => (hchild c).bind fun _ => ih _

end

theorem yamlEmitValue_approximates (levels : Nat) (offset : UInt64) :
    Approximates .overflow (yamlEmitValue core lib options r levels offset)
      (yamlEmitValue core lib options r (levels + 1) offset) := by
  induction levels generalizing offset with
  | zero => exact .throw _
  | succ levels ih =>
    refine .bind (.refl _) fun kind => ?_
    cases kind with
    | block =>
      have hentries := fun entries => (yamlEntriesLoop_approximates core r lib ih entries).bind
        fun _ => .refl (yamlEmitMappingEnd core lib)
      refine .bind (.refl _) fun body => .bind (.refl _) fun _ => ?_
      refine .ite (.bind (.refl _) fun _ => ?_) ?_
      · exact .bind (.refl _) fun _ => .ite (.bind (.refl _) hentries) (.bind (.refl _) hentries)
      · exact .bind (.refl _) fun _ => .ite (.bind (.refl _) hentries) (.bind (.refl _) hentries)
    | array =>
      exact .bind (.refl _) fun _ => .bind (.refl _) fun _ =>
        (yamlElementsLoop_approximates r ih _ _).bind fun _ => .refl _
    | null => exact .refl _
    | false => exact .refl _
    | true => exact .refl _
    | int64 => exact .refl _
    | uint64 => exact .refl _
    | float64 => exact .refl _
    | string => exact .refl _

theorem yamlExport_approximates (levels : Nat) :
    Approximates .overflow (yamlExport core lib options r levels)
      (yamlExport core lib options r (levels + 1)) := by
  have hroots : Approximates .overflow (yamlRoots core lib options r levels)
      (yamlRoots core lib options r (levels + 1)) :=
    .ite (.refl _) <| .bind (.refl _) fun _ => .bind (.refl _) fun _ => .bind (.refl _) fun _ =>
      .bind (.refl _) fun _ => .bind (attempt_approximates (yamlEntriesLoop_approximates core r lib
        (yamlEmitValue_approximates core options r lib levels) _)) fun _ => .refl _
  exact .bind (.refl _) fun _ => .ite (.bind (.refl _) fun _ => .bind (.refl _) fun _ =>
    .bind (.refl _) fun _ => hroots.bind fun _ => .refl _) (.refl _)

/-! ### INI -/

section

variable {block block' : Bytes → UInt64 → ExportM σ Unit}
  (hblock : ∀ section_ offset, Approximates .overflow (block section_ offset)
    (block' section_ offset))

include hblock

theorem iniEmitEntry_approximates (section_ : Bytes) (entry : IniSortEntry) :
    Approximates .overflow (iniEmitEntry core r block section_ entry)
      (iniEmitEntry core r block' section_ entry) := by
  refine .bind (.refl _) fun kind => ?_
  cases kind with
  | block => exact .bind (.refl _) fun _ => .bind (.refl _) fun _ => hblock _ _
  | array => exact .refl _
  | null => exact .refl _
  | false => exact .refl _
  | true => exact .refl _
  | int64 => exact .refl _
  | uint64 => exact .refl _
  | float64 => exact .refl _
  | string => exact .refl _

theorem iniEntriesLoop_approximates (section_ : Bytes) (bytes : Nat)
    (entries blocks : List IniSortEntry) :
    Approximates .overflow (iniEntriesLoop core r block section_ bytes entries blocks)
      (iniEntriesLoop core r block' section_ bytes entries blocks) := by
  induction entries generalizing blocks with
  | nil => exact .refl _
  | cons entry entries ih =>
    rw [iniEntriesLoop, iniEntriesLoop]
    refine .bind (.refl _) fun _ => .ite ?_ ?_
    · exact .ite (.bind (.refl _) fun _ => ih _) (ih _)
    · exact (iniEmitEntry_approximates core r hblock section_ entry).bind fun _ => ih _

theorem iniBlocksLoop_approximates (section_ : Bytes) (blocks : List IniSortEntry) :
    Approximates .overflow (iniBlocksLoop core r block section_ blocks)
      (iniBlocksLoop core r block' section_ blocks) := by
  induction blocks with
  | nil => exact .refl _
  | cons entry blocks ih =>
    exact (iniEmitEntry_approximates core r hblock section_ entry).bind fun _ => ih

theorem iniRootLoop_approximates (bytes : Nat) (entries blocks : List IniSortEntry) :
    Approximates .overflow (iniRootLoop core r block bytes entries blocks)
      (iniRootLoop core r block' bytes entries blocks) := by
  induction entries generalizing blocks with
  | nil => exact .refl _
  | cons entry entries ih =>
    rw [iniRootLoop, iniRootLoop]
    refine .bind (.refl _) fun _ => .ite (.refl _) ?_
    cases kindAt r entry.valueOffset with
    | fault => exact .refl _
    | no => exact .refl _
    | ok kind =>
      refine .ite ?_ ?_
      · exact .ite (.bind (.refl _) fun _ => .ite (ih _) (.refl _))
          (.bind (.refl _) fun _ => .ite (ih _) (.refl _))
      · exact (attempt_approximates (iniEmitEntry_approximates core r hblock [] entry)).bind
          fun _ => .ite (ih _) (.refl _)

theorem iniRootBlocksLoop_approximates (blocks : List IniSortEntry) :
    Approximates .overflow (iniRootBlocksLoop core r block blocks)
      (iniRootBlocksLoop core r block' blocks) := by
  induction blocks with
  | nil => exact .refl _
  | cons entry blocks ih =>
    exact .bind (.refl _) fun _ => .ite (.refl _) <|
      (attempt_approximates (iniEmitEntry_approximates core r hblock [] entry)).bind fun _ =>
        .ite ih (.refl _)

end

theorem iniEmitBlock_approximates (levels : Nat) (section_ : Bytes) (offset : UInt64) :
    Approximates .overflow (iniEmitBlock core options r levels section_ offset)
      (iniEmitBlock core options r (levels + 1) section_ offset) := by
  induction levels generalizing section_ offset with
  | zero => exact .throw _
  | succ levels ih =>
    -- the two loops over the entries and over the blocks that are left
    have hloops : ∀ bytes entries, Approximates .overflow (do
        let blocks ← iniEntriesLoop core r (iniEmitBlock core options r levels) section_ bytes
          entries []
        if blocks ≠ [] then do
          iniWriteLiteral core [0x0A]
          iniBlocksLoop core r (iniEmitBlock core options r levels) section_ blocks) (do
        let blocks ← iniEntriesLoop core r (iniEmitBlock core options r (levels + 1)) section_
          bytes entries []
        if blocks ≠ [] then do
          iniWriteLiteral core [0x0A]
          iniBlocksLoop core r (iniEmitBlock core options r (levels + 1)) section_ blocks) := by
      intro bytes entries
      refine (iniEntriesLoop_approximates core r ih section_ bytes entries []).bind fun blocks => ?_
      refine .ite (.bind (.refl _) fun _ => ?_) (.refl _)
      exact iniBlocksLoop_approximates core r ih section_ blocks
    -- the same behind the line that opens the section, which the root has not
    have hheader : ∀ bytes entries, Approximates .overflow (do
        if section_.length ≠ 0 then do
          iniWriteLiteral core [0x5B]
          iniWrite core section_
          iniWriteLiteral core [0x5D, 0x0A]
        let blocks ← iniEntriesLoop core r (iniEmitBlock core options r levels) section_ bytes
          entries []
        if blocks ≠ [] then do
          iniWriteLiteral core [0x0A]
          iniBlocksLoop core r (iniEmitBlock core options r levels) section_ blocks) (do
        if section_.length ≠ 0 then do
          iniWriteLiteral core [0x5B]
          iniWrite core section_
          iniWriteLiteral core [0x5D, 0x0A]
        let blocks ← iniEntriesLoop core r (iniEmitBlock core options r (levels + 1)) section_
          bytes entries []
        if blocks ≠ [] then do
          iniWriteLiteral core [0x0A]
          iniBlocksLoop core r (iniEmitBlock core options r (levels + 1)) section_ blocks) :=
      fun bytes entries => .ite (.bind (.refl _) fun _ => .bind (.refl _) fun _ =>
        .bind (.refl _) fun _ => hloops bytes entries) (hloops bytes entries)
    rw [iniEmitBlock, iniEmitBlock]
    refine .bind (.refl _) fun body => ?_
    refine .ite (.bind (.refl _) fun _ => ?_) ?_
    · exact .bind (.refl _) fun _ => .ite (.bind (.refl _) (hheader _))
        (.bind (.refl _) (hheader _))
    · exact .bind (.refl _) fun _ => .ite (.bind (.refl _) (hheader _))
        (.bind (.refl _) (hheader _))

theorem iniRoots_approximates (levels : Nat) :
    Approximates .overflow (iniRoots core options r levels)
      (iniRoots core options r (levels + 1)) :=
  .ite (.refl _) <| .bind (.refl _) fun _ => .bind (.refl _) fun _ => .bind (.refl _) fun _ =>
    .bind (iniRootLoop_approximates core r (iniEmitBlock_approximates core options r levels) _ _ _)
      fun _ => iniRootBlocksLoop_approximates core r
        (iniEmitBlock_approximates core options r levels) _

end

/-! ## Exports -/

/-- The formats of exports. -/
inductive ExportFormat where
  | json
  | yaml
  | ini
deriving Repr, DecidableEq

/-- An export of a file in a format, with so many levels of calls. -/
def exportAs (core : Core σ) (lib : LibYaml σ) (options : Option ExportOptions) (r : Reader)
    (world : σ) (format : ExportFormat) (levels : Nat) : Except ExportStop Bool × σ :=
  match format with
  | .json => exportJsonEx core levels r options world
  | .yaml => exportYamlEx core lib levels r options world
  | .ini => exportIniEx core levels r options world

/-- An export ends in a stop that is no failure only if its body does. -/
theorem exportEnd_eq_error {m : ExportM σ Unit} {world : σ} {stop : ExportStop}
    (h : (exportEnd m world).1 = .error stop) :
    stop ≠ .failed ∧ ∃ s, m { world, writeFailed := false } = .error stop s := by
  cases hrun : m { world, writeFailed := false } with
  | ok a s =>
    rw [exportEnd_ok hrun] at h
    cases h
  | error e s =>
    rw [exportEnd_error hrun] at h
    dsimp only at h
    split at h
    · cases h
    · cases h
      exact ⟨‹_›, s, rfl⟩

/-- With more levels an export that did not run out of them ends in the same way. -/
theorem exportEnd_approximates {m m' : ExportM σ Unit} (hm : Approximates .overflow m m')
    {world : σ} (h : (exportEnd m world).1 ≠ .error .overflow) :
    exportEnd m' world = exportEnd m world := by
  rcases hm { world, writeFailed := false } with ⟨s, hstop⟩ | heq
  · rw [exportEnd_error hstop] at h
    exact absurd rfl h
  · have hrun : m'.run { world, writeFailed := false } = m.run { world, writeFailed := false } := heq
    rw [exportEnd, exportEnd, hrun]

theorem exportAs_approximates (core : Core σ) (lib : LibYaml σ) (options : Option ExportOptions)
    (r : Reader) (world : σ) (format : ExportFormat) {levels levels' : Nat}
    (hle : levels ≤ levels')
    (h : (exportAs core lib options r world format levels).1 ≠ .error .overflow) :
    exportAs core lib options r world format levels' =
      exportAs core lib options r world format levels := by
  cases format with
  | json =>
    exact exportEnd_approximates (.of_le (exportRoots_approximates core options r) hle) h
  | yaml =>
    exact exportEnd_approximates (.of_le (yamlExport_approximates core options r lib) hle) h
  | ini => exact exportEnd_approximates (.of_le (iniRoots_approximates core options r) hle) h

section

variable {core : Core σ} (hsort : Sorts core.sortWithCompare) (lib : LibYaml σ)
  (options : Option ExportOptions) (r : Reader) (world : σ)

include hsort

/-- The calls of an export run out of levels only on a chain from a root that is as long. -/
theorem exportAs_overflow {format : ExportFormat} {levels : Nat}
    (h : (exportAs core lib options r world format levels).1 = .error .overflow) :
    ∃ a below, Descent (Child r) (IsRoot r) a below ∧ below.length = levels := by
  have hnofault : ExportStop.overflow ≠ .fault := by decide
  have hhalts : ∃ good bad, RootHalts r good bad .overflow levels := by
    cases format with
    | json =>
      obtain ⟨-, s, hrun⟩ := exportEnd_eq_error h
      exact ⟨_, _, ((exportRoots_halts (by decide) hsort (fun h => absurd h hnofault)
        (fun h => absurd h hnofault) (fun _ hbad => hbad) levels) _ trivial).2 _ _ hrun rfl⟩
    | yaml =>
      obtain ⟨-, s, hrun⟩ := exportEnd_eq_error h
      exact ⟨_, _, ((yamlExport_halts (by decide) hsort (fun h => absurd h hnofault)
        (fun h => absurd h hnofault) (fun h => absurd h hnofault) (fun _ hbad => hbad) levels) _
        trivial).2 _ _ hrun rfl⟩
    | ini =>
      obtain ⟨-, s, hrun⟩ := exportEnd_eq_error h
      exact ⟨_, _, ((iniRoots_halts (by decide) hsort (fun h => absurd h hnofault)
        (fun h => absurd h hnofault) (fun _ hbad => hbad) levels) _ trivial).2 _ _ hrun rfl⟩
  obtain ⟨good, bad, entry, hentry, ⟨hfault, -⟩ | hhalts⟩ := hhalts
  · exact absurd hfault hnofault
  · obtain ⟨below, hchain, hlength⟩ := hhalts.chain
    exact ⟨entry.valueOffset, below, ⟨⟨entry, hentry, rfl⟩, hchain⟩, hlength⟩

/-- Calls that may be nested more deeply than the file has bytes are deep enough, unless the nodes go
around. -/
theorem exportAs_ends (hacyclic : ¬Cyclic (Child r) (IsRoot r)) (format : ExportFormat) {levels : Nat}
    (hlarge : r.base.bytes.length < levels) :
    (exportAs core lib options r world format levels).1 ≠ .error .overflow := by
  intro hoverflow
  obtain ⟨a, below, hdescent, hlength⟩ := exportAs_overflow hsort lib options r world hoverflow
  exact hacyclic (cyclic_of_long hdescent (hlength ▸ hlarge))

/-- An export to JSON that returns `true` has been through the whole file. -/
theorem exportJsonEx_passed {levels : Nat}
    (h : (exportJsonEx core levels r options world).1 = .ok true) (a : UInt64) (hroot : IsRoot r a) :
    PassedThrough r levels a := by
  obtain ⟨s, hrun, -⟩ := exportEnd_eq_true h
  exact exportRoots_returns hsort options r levels _ _ _ hrun a hroot

/-- An export to JSON or YAML that returns `true` has been at the end of every chain. -/
theorem exportAs_bounded {format : ExportFormat} (hformat : format ≠ .ini) {levels : Nat}
    (h : (exportAs core lib options r world format levels).1 = .ok true) {a : UInt64}
    {below : List UInt64} (hdescent : Descent (Child r) (IsRoot r) a below) :
    below.length < levels := by
  obtain ⟨hroot, hchain⟩ := hdescent
  cases format with
  | json => exact (exportJsonEx_passed hsort options r world h a hroot).bounded below hchain
  | yaml =>
    obtain ⟨s, hrun, -⟩ := exportEnd_eq_true h
    exact yamlExport_returns hsort lib options r levels _ _ _ hrun a hroot below hchain
  | ini => exact absurd rfl hformat

/-- On a file whose nodes do not go around, an export in any format ends, and in the same way for
every number of levels that is larger than the file. On one whose nodes go around, no number of
levels is enough for an export to JSON or YAML to return `true`. -/
theorem exports_end :
    (¬Cyclic (Child r) (IsRoot r) → ∀ format, ∃ result : Except ExportStop Bool × σ,
      result.1 ≠ .error .overflow ∧ ∀ levels, r.base.bytes.length < levels →
        exportAs core lib options r world format levels = result) ∧
    (Cyclic (Child r) (IsRoot r) → ∀ format, format ≠ .ini → ∀ levels,
      (exportAs core lib options r world format levels).1 ≠ .ok true) := by
  constructor
  · intro hacyclic format
    have hends := exportAs_ends hsort lib options r world hacyclic format (Nat.lt_succ_self _)
    refine ⟨_, hends, ?_⟩
    intro levels hlarge
    exact exportAs_approximates core lib options r world format hlarge hends
  · intro hcyclic format hformat levels htrue
    obtain ⟨a, below, hdescent, hle⟩ := hcyclic.exists_descent levels
    have hlt := exportAs_bounded hsort lib options r world hformat htrue hdescent
    omega

end

/-! ## An array in an array -/

/-- Below an array of one element there is only the element. -/
theorem child_loneArray {a child c : UInt64} {r : Reader} (hkind : kindAt r a = .ok .array)
    (h : HasAt r.base.bytes a.toNat (loneArray child)) (haligned : alignUp (a + 1) 8 = a + 1) :
    Child r a c ↔ c = child := by
  obtain ⟨hbody, helement⟩ := arrayBodyOffsets_loneArray h haligned
  constructor
  · intro hchild
    obtain ⟨-, header, start, hbody', i, hi, hat⟩ := hchild.of_array hkind
    rw [hbody] at hbody'
    cases hbody'
    obtain rfl : i = 0 := Nat.lt_one_iff.mp hi
    rw [Nat.zero_mul, Nat.add_zero] at hat
    cases helement.symm.trans (loadU64_eq_ok.mpr hat)
    rfl
  · rintro rfl
    refine .element ⟨hkind, _, _, hbody, 0, Nat.one_pos, ?_⟩
    rw [Nat.zero_mul, Nat.add_zero]
    exact loadU64_eq_ok.mp helement

/-- An array with an array, the inner one with an element at an offset, and a null. -/
def pairedNodes (child : UInt64) : Bytes :=
  List.replicate 7 0 ++ loneArray 183 ++ (List.replicate 7 0 ++ loneArray child) ++
    [Kind.null.byte]

theorem length_pairedNodes (child : UInt64) : (pairedNodes child).length = 49 := by
  simp [pairedNodes, length_loneArray]

section

variable (hash64 : Bytes → UInt64) (child : UInt64)

/-- The file with the root `a`, the outer array. -/
def paired : Parts where
  entries := [⟨hash64 [0x61], 201, 1, 159⟩]
  nodes := pairedNodes child
  strings := [[0x61]]

theorem paired_stringsStart : (paired hash64 child).stringsStart = 201 :=
  congrArg (152 + ·) (length_pairedNodes child)

theorem paired_footerStart : (paired hash64 child).footerStart = 209 := by
  rw [Parts.footerStart, paired_stringsStart]
  exact congrArg (201 + ·) (by decide : (poolBytes [[0x61]]).length = 8)

theorem paired_sound : (paired hash64 child).Sound where
  size_lt := by
    rw [paired_footerStart]
    decide
  sorted := List.pairwise_singleton _ _
  value := by
    intro entry hentry
    rw [List.mem_singleton.mp hentry, paired_stringsStart]
    exact (by decide : 152 ≤ 159 ∧ 159 < 201)
  key := by
    intro entry hentry
    rw [List.mem_singleton.mp hentry, paired_stringsStart, paired_footerStart]
    exact (by decide : 201 ≤ 201 ∧ 201 + 4 + 1 ≤ 209)
  utf8 := by
    intro s hs
    rw [List.mem_singleton.mp hs]
    exact isUtf8_of_ascii (by simp)
  length_le := by
    intro s hs
    rw [List.mem_singleton.mp hs]
    decide +kernel

variable {hash64} {child} {b : Buffer}
  (hbytes : b.bytes = (paired hash64 child).file hash64)

include hbytes

/-- The outer array is the only root, and has the inner one below it. -/
theorem paired_nodes :
    let r : Reader := ⟨b, (paired hash64 child).header hash64⟩
    (∀ root, IsRoot r root ↔ root = 159) ∧ (∀ c, Child r 159 c ↔ c = 183) ∧
      (∀ c, Child r 183 c ↔ c = child) ∧ kindAt r 200 = .ok .null ∧
      kindAt r 159 = .ok .array ∧ kindAt r 183 = .ok .array := by
  intro r
  obtain ⟨hroots, hnodes, -⟩ := Parts.hasAt hbytes
  have hnodes' : HasAt b.bytes 152 (pairedNodes child) := hnodes
  obtain ⟨harrays, hnull⟩ := hasAt_append.mp hnodes'
  obtain ⟨hfirst, hsecond⟩ := hasAt_append.mp harrays
  have houter : HasAt b.bytes 159 (loneArray 183) := (hasAt_append.mp hfirst).2
  have hinner : HasAt b.bytes 183 (loneArray child) := (hasAt_append.mp hsecond).2
  have hbyte : HasAt b.bytes 200 [Kind.null.byte] := hnull
  have hkind : ∀ (offset : UInt64) (kind : Kind), 152 ≤ offset → offset < 201 →
      HasAt b.bytes offset.toNat [kind.byte] → kindAt r offset = .ok kind := by
    intro offset kind hge hlt hat
    refine kindAt_eq_ok.mpr ⟨⟨hge, lt_of_lt_of_eq hlt ?_⟩, _, loadByte_eq_ok.mpr hat,
      Kind.ofByte_byte kind⟩
    change 201 = 152 + UInt64.ofNat (pairedNodes child).length
    rw [length_pairedNodes]
    rfl
  have hkindOf : ∀ {offset : Nat} {element : UInt64}, HasAt b.bytes offset (loneArray element) →
      HasAt b.bytes offset [Kind.array.byte] := by
    intro offset element h
    exact (hasAt_append.mp (hasAt_append.mp h).1).1
  have houterKind := hkind 159 .array (by decide) (by decide) (hkindOf houter)
  have hinnerKind := hkind 183 .array (by decide) (by decide) (hkindOf hinner)
  refine ⟨?_, ?_, ?_, hkind 200 .null (by decide) (by decide) hbyte, houterKind, hinnerKind⟩
  · intro root
    constructor
    · rintro ⟨entry, hroot, rfl⟩
      have hheld : RootsHeld r.base r.header (paired hash64 child).entries :=
        (paired_sound hash64 child).rootsHeld hbytes
      rw [List.mem_singleton.mp (hheld.mem rfl hroot)]
    · rintro rfl
      rw [paired, List.flatMap_cons, List.flatMap_nil, List.append_nil] at hroots
      exact ⟨_, ⟨0, Nat.one_pos, hroots⟩, rfl⟩
  · intro c
    exact child_loneArray houterKind houter (by decide)
  · intro c
    exact child_loneArray hinnerKind hinner (by decide)

end

/-- An inner array with the outer one as its element, in a file that the verifier accepts: nodes
that go around. -/
theorem paired_cyclic {hash64 : Bytes → UInt64} {b : Buffer}
    (hbytes : b.bytes = (paired hash64 159).file hash64) :
    Cyclic (Child ⟨b, (paired hash64 159).header hash64⟩)
      (IsRoot ⟨b, (paired hash64 159).header hash64⟩) := by
  obtain ⟨hroot, houter, hinner, -⟩ := paired_nodes hbytes
  refine ⟨159, 159, (hroot 159).mpr rfl, .refl, ?_⟩
  exact .tail (.single ((houter 183).mpr rfl)) ((hinner 159).mpr rfl)

/-- With a null as the element of the inner array, the nodes do not go around. -/
theorem paired_acyclic {hash64 : Bytes → UInt64} {b : Buffer}
    (hbytes : b.bytes = (paired hash64 200).file hash64) :
    ¬Cyclic (Child ⟨b, (paired hash64 200).header hash64⟩)
      (IsRoot ⟨b, (paired hash64 200).header hash64⟩) := by
  obtain ⟨hroot, houter, hinner, hnull, -⟩ := paired_nodes hbytes
  refine not_cyclic_of_climbs (fun a => a = 159 ∨ a = 183 ∨ a = 200) UInt64.toNat
    (fun a ha => .inl ((hroot a).mp ha)) ?_
  rintro a c (rfl | rfl | rfl) hchild
  · rw [(houter c).mp hchild]
    decide
  · rw [(hinner c).mp hchild]
    decide
  · rcases hchild.container with hkind | hkind
    · cases hkind.symm.trans hnull
    · cases hkind.symm.trans hnull

/-- Of two files that the verifier accepts, the one with an array that is in itself has no export to
JSON or YAML that returns `true`; of the other, every export ends with 242 levels as with any larger
number of them. -/
theorem exports_end_paired : ∃ (b b' : Buffer) (r r' : Reader),
    verifyBuffer (fun _ => 0) b = .ok .ok ∧ openBuffer true b = .ok r ∧
      verifyBuffer (fun _ => 0) b' = .ok .ok ∧ openBuffer true b' = .ok r' ∧
      (∀ lib options format, format ≠ .ini → ∀ levels,
        (exportAs plainCore lib options r [] format levels).1 ≠ .ok true) ∧
      ∀ lib options format, ∃ result : Except ExportStop Bool × Bytes,
        result.1 ≠ .error .overflow ∧ ∀ levels, 241 < levels →
          exportAs plainCore lib options r' [] format levels = result := by
  obtain ⟨b, hbytes⟩ : ∃ b : Buffer, b.bytes = (paired (fun _ => 0) 159).file fun _ => 0 :=
    (paired_sound (fun _ => 0) 159).exists_buffer
  obtain ⟨b', hbytes'⟩ : ∃ b' : Buffer, b'.bytes = (paired (fun _ => 0) 200).file fun _ => 0 :=
    (paired_sound (fun _ => 0) 200).exists_buffer
  have hlength : b'.bytes.length = 241 := by
    rw [hbytes', Parts.length_file, paired_footerStart]
  refine ⟨b, b', _, _, (paired_sound _ _).verified hbytes, Parts.opened hbytes,
    (paired_sound _ _).verified hbytes', Parts.opened hbytes', ?_, ?_⟩
  · intro lib options
    exact (exports_end sorts_insertionSortWith lib options _ []).2 (paired_cyclic hbytes)
  · intro lib options format
    rw [← hlength]
    exact (exports_end sorts_insertionSortWith lib options _ []).1 (paired_acyclic hbytes') format

end Hrbl
