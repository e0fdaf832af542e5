import Hrbl.Keeping

/-!
# Sorted exports

With `sort_keys`, what an exporter writes is settled by the document, however its members
were added and wherever the writer has put them.
-/

namespace Hrbl

open Lib Lib.Outcome

variable {σ α β : Type}

/-! ## Levels

A document is printed without levels, so an export of a file with enough of them does not
stop for want of one. -/

/-- The computation does not stop for want of levels. -/
abbrev NoOverflow (m : ExportM σ α) : Prop := Keeps (fun _ => True) (fun e _ => e ≠ .overflow) m

theorem failed_ne_overflow : ExportStop.failed ≠ .overflow := by decide

theorem Core.noOverflow (core : Core σ) :
    core.Keeps (fun _ => True) fun e _ => e ≠ ExportStop.overflow where
  marked _ _ _ := failed_ne_overflow
  writeBytes _ _ _ := ⟨fun _ => trivial, fun _ => failed_ne_overflow⟩
  allocate _ _ _ := ⟨fun _ => trivial, fun _ => failed_ne_overflow⟩
  formatSigned _ _ _ _ := ⟨fun _ => trivial, fun _ => failed_ne_overflow⟩
  formatUnsigned _ _ _ _ := ⟨fun _ => trivial, fun _ => failed_ne_overflow⟩
  formatHexadecimal _ _ _ _ _ := ⟨fun _ => trivial, fun _ => failed_ne_overflow⟩

theorem stops_noOverflow :
    Stops (fun _ : ExportState σ => True) fun e _ => e ≠ ExportStop.overflow where
  fail _ _ := failed_ne_overflow
  fault _ _ := by decide

namespace NoOverflow

variable (core : Core σ)

theorem rootAlloc (bytes : Nat) : NoOverflow (scratchAlloc core bytes (throw .failed)) := by
  intro s hs
  refine ⟨fun _ _ _ => trivial, fun e s' hrun => ?_⟩
  rw [scratchAlloc, callCore_bind] at hrun
  split at hrun
  · cases hrun
  · cases hrun
    exact failed_ne_overflow

theorem printRoots (options : Option ExportOptions) (document : Document) :
    NoOverflow (printRoots core options document) :=
  Keeps.printRoots options
    { toKeeps := core.noOverflow
      formatDouble := fun _ _ _ _ => ⟨fun _ => trivial, fun _ => failed_ne_overflow⟩ }
    stops_noOverflow (rootAlloc core _)

theorem printIniRoots (document : Document) : NoOverflow (printIniRoots core document) :=
  Keeps.printIniRoots
    { toKeeps := core.noOverflow
      stop := fun _ _ => failed_ne_overflow
      formatDouble := fun _ _ _ _ => ⟨fun _ => trivial, fun _ => failed_ne_overflow⟩ }
    (fun _ _ => trivial) (fun _ _ _ => id) (.inl stops_noOverflow) (rootAlloc core _)

end NoOverflow

/-! ## Two files -/

section

variable {core : Core σ} {options : Option ExportOptions} {hash64 : Bytes → UInt64}
  {document canonical : Document} {b : Buffer}

/-- Another order of what is sorted is sorted the same way. -/
theorem RearrangedDocument.sorted {source out : Document}
    (hperm : RearrangedDocument List.Perm source document)
    (h : RearrangedDocument SortedByKey document out) :
    RearrangedDocument SortedByKey source out :=
  RearrangedDocument.of_perm (fun _ _ _ hp hs => ⟨hp.trans hs.1, hs.2⟩) hperm h

/-- The sorted exports of the file of a document are those of its members by their keys, in
whatever order they came. -/
theorem sorted_export_document {source : Document} (hsort : Sorts core.sortWithCompare)
    (hsorted : sortKeysOf options = true) (hdistinct : source.KeysDistinct)
    (hcanonical : RearrangedDocument SortedByKey source canonical)
    (hperm : RearrangedDocument List.Perm source document)
    (hbytes : b.bytes = documentFile hash64 document)
    (hsize : documentSize hash64 document < 2 ^ 32) {levels : Nat}
    (hlevels : membersDepth document ≤ levels) :
    exportRoots core options { base := b, header := documentHeader hash64 document } levels =
        printRoots core options canonical ∧
      iniRoots core options { base := b, header := documentHeader hash64 document } levels =
        printIniRoots core canonical := by
  have hholds := holdsDocument_document hbytes hsize
  have horder : exportOrder options = SortedByKey := if_pos hsorted
  have hfile := rearrangedDocument_inFileOrder hash64 document
  have hdepth : membersDepth (document.inFileOrder hash64) ≤ levels := by
    rwa [membersDepth_document]
  obtain ⟨out, hout, hjson⟩ : ∃ out, RearrangedDocument (exportOrder options) _ out ∧ _ :=
    exportRoots_holds hsort hholds hdepth
  obtain ⟨out', hout', hini⟩ : ∃ out, RearrangedDocument (exportOrder options) _ out ∧ _ :=
    iniRoots_holds hsort hholds hdepth
  rw [horder] at hout hout'
  obtain rfl := hcanonical.unique hdistinct (hperm.sorted (hfile.sorted hout))
  obtain rfl := hcanonical.unique hdistinct (hperm.sorted (hfile.sorted hout'))
  exact ⟨hjson, hini⟩

/-- The members of a document by their keys at every level. -/
theorem exists_canonical (hsort : Sorts core.sortWithCompare) (hsorted : sortKeysOf options = true)
    (document : Document) : ∃ canonical, RearrangedDocument SortedByKey document canonical := by
  refine RearrangedDocument.exists (fun members => ?_) document
  obtain ⟨out, hout⟩ := exportOrder_exists hsort options members
  rw [exportOrder, if_pos hsorted] at hout
  exact ⟨out, hout⟩

theorem NoOverflow.exportEnd {m : ExportM σ Unit} (h : NoOverflow m) (world : σ) :
    (exportEnd m world).1 ≠ .error .overflow := by
  rw [Hrbl.exportEnd]
  cases hm : m.run { world, writeFailed := false } with
  | ok _ s => exact fun heq => by cases heq
  | error stop s =>
    cases stop with
    | failed => exact fun heq => by cases heq
    | fault => exact fun heq => by cases heq
    | overflow => exact absurd rfl ((h _ trivial).2 _ _ hm)

end

/-- Two writers that have been told to build the same document, with the distinct keys of the
root and of every block in any order, return files that are exported alike with `sort_keys`,
as JSON and as INI: the same answer, and the same calls of the sink. -/
theorem sorted_export_canonical (core : Core σ) (hsort : Sorts core.sortWithCompare)
    {env env' : Env} {options options' : Option WriterOptions} {ops ops' : List Op}
    {w w' : Writer} (hrun : (Writer.create options).runs env ops = some w)
    (hrun' : (Writer.create options').runs env' ops' = some w')
    (hclosed : w.currentScope = none) (hclosed' : w'.currentScope = none)
    (how : Option ExportOptions) (hsorted : sortKeysOf how = true) :
    ∃ document document' : Document, Builder.empty.run ops = some ⟨document, []⟩ ∧
      Builder.empty.run ops' = some ⟨document', []⟩ ∧
      (RearrangedDocument List.Perm document document' → document.KeysDistinct →
        documentSize env.hash64 document < 2 ^ 32 → documentSize env'.hash64 document' < 2 ^ 32 →
        w.Finalizes env document fun b => w'.Finalizes env' document' fun b' =>
          ∃ r r' enough, openBuffer true b = .ok r ∧ openBuffer true b' = .ok r' ∧
          ∀ levels ≥ enough, ∀ levels' ≥ enough, ∀ world,
            (exportJsonEx core levels r how world = exportJsonEx core levels' r' how world ∧
              (exportJsonEx core levels r how world).1 ≠ .error .overflow) ∧
            exportIniEx core levels r how world = exportIniEx core levels' r' how world ∧
              (exportIniEx core levels r how world).1 ≠ .error .overflow) := by
  obtain ⟨document, hb, hwritten⟩ := runs_written hrun hclosed
  obtain ⟨document', hb', hwritten'⟩ := runs_written hrun' hclosed'
  refine ⟨document, document', hb, hb', fun hperm hdistinct hsize hsize' => ?_⟩
  refine (hwritten hsize).mono fun b hbytes => (hwritten' hsize').mono fun b' hbytes' => ?_
  obtain ⟨canonical, hcanonical⟩ := exists_canonical hsort hsorted document
  have hself : RearrangedDocument List.Perm document document :=
    ⟨document, RearrangedMembers.refl List.Perm.refl document, List.Perm.refl document⟩
  refine ⟨_, _, max (membersDepth document) (membersDepth document'),
    openBuffer_document hbytes, openBuffer_document hbytes', ?_⟩
  intro levels hlevels levels' hlevels' world
  obtain ⟨hjson, hini⟩ := sorted_export_document hsort hsorted hdistinct hcanonical hself hbytes
    hsize ((Nat.le_max_left _ _).trans hlevels)
  obtain ⟨hjson', hini'⟩ := sorted_export_document hsort hsorted hdistinct hcanonical hperm
    hbytes' hsize' ((Nat.le_max_right _ _).trans hlevels')
  rw [exportJsonEx, exportJsonEx, exportIniEx, exportIniEx, hjson, hjson', hini, hini']
  exact ⟨⟨rfl, (NoOverflow.printRoots core how canonical).exportEnd world⟩, rfl,
    (NoOverflow.printIniRoots core canonical).exportEnd world⟩

/-- A block and a string in either order, with the members of the block in either order, all
of which have the same hash; the second writer has workers. -/
theorem sorted_export_canonical_swapped :
    ∃ w w' b b' v v' r r' enough, (Writer.create none).runs (.succeeding fun _ => 7)
        [.setString (.data []) [0x73], .beginBlock (.data [0x62]), .setNull (.data [0x78]),
          .setBool (.data [0x61]) true, .endBlock] = some w ∧
      (Writer.create (some { workerCount := 4, deduplicateStrings := true })).runs
        (.succeeding fun _ => 7)
        [.beginBlock (.data [0x62]), .setBool (.data [0x61]) true, .setNull (.data [0x78]),
          .endBlock, .setString (.data []) [0x73]] = some w' ∧
      finalizeToBuffer (.succeeding fun _ => 7) w = .returned b.bytes v ∧
      finalizeToBuffer (.succeeding fun _ => 7) w' = .returned b'.bytes v' ∧
      openBuffer true b = .ok r ∧ openBuffer true b' = .ok r' ∧
      ∀ levels ≥ enough, ∀ levels' ≥ enough, ∀ world,
        (exportJsonEx plainCore levels r none world =
            exportJsonEx plainCore levels' r' none world ∧
          (exportJsonEx plainCore levels r none world).1 ≠ .error .overflow) ∧
        exportIniEx plainCore levels r none world = exportIniEx plainCore levels' r' none world ∧
          (exportIniEx plainCore levels r none world).1 ≠ .error .overflow := by
  obtain ⟨w, hrun, hclosed, hworkers⟩ : ∃ w, (Writer.create none).runs (.succeeding fun _ => 7)
      [.setString (.data []) [0x73], .beginBlock (.data [0x62]), .setNull (.data [0x78]),
        .setBool (.data [0x61]) true, .endBlock] = some w ∧ w.currentScope = none ∧
        WorkersFit w.options.workerCount := ⟨_, rfl, rfl, by decide⟩
  obtain ⟨w', hrun', hclosed', hworkers'⟩ : ∃ w, (Writer.create
      (some { workerCount := 4, deduplicateStrings := true })).runs (.succeeding fun _ => 7)
      [.beginBlock (.data [0x62]), .setBool (.data [0x61]) true, .setNull (.data [0x78]),
        .endBlock, .setString (.data []) [0x73]] = some w ∧ w.currentScope = none ∧
        WorkersFit w.options.workerCount := ⟨_, rfl, rfl, by decide⟩
  obtain ⟨document, document', hb, hb', hfiles⟩ := sorted_export_canonical plainCore
    sorts_insertionSortWith hrun hrun' hclosed hclosed' none rfl
  cases hb
  cases hb'
  have hblock : Rearranged List.Perm
      (.block [([0x78], .scalar .null), ([0x61], .scalar (.bool true))])
      (.block [([0x61], .scalar (.bool true)), ([0x78], .scalar .null)]) :=
    ⟨_, _, rfl, RearrangedMembers.refl List.Perm.refl _, List.Perm.swap _ _ _⟩
  have hperm : RearrangedDocument List.Perm
      [([], .scalar (.string [0x73])),
        ([0x62], .block [([0x78], .scalar .null), ([0x61], .scalar (.bool true))])]
      [([0x62], .block [([0x61], .scalar (.bool true)), ([0x78], .scalar .null)]),
        ([], .scalar (.string [0x73]))] :=
    ⟨_, ⟨_, _, rfl, rfl, _, _, rfl, hblock, rfl⟩, List.Perm.swap _ _ _⟩
  have hdistinct : Document.KeysDistinct [([], .scalar (.string [0x73])),
      ([0x62], .block [([0x78], .scalar .null), ([0x61], .scalar (.bool true))])] :=
    ⟨by decide, trivial, ⟨by decide, trivial, trivial, trivial⟩, trivial⟩
  obtain ⟨b, v, hreturned, hsecond⟩ :=
    (hfiles hperm hdistinct (by decide +kernel) (by decide +kernel)).returned
      (Env.succeeding_succeeds _) hworkers
  obtain ⟨b', v', hreturned', r, r', enough, hopen, hopen', h⟩ :=
    hsecond.returned (Env.succeeding_succeeds _) hworkers'
  exact ⟨w, w', b, b', v, v', r, r', enough, hrun, hrun', hreturned, hreturned', hopen, hopen', h⟩

end Hrbl
