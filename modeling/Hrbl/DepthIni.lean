import Hrbl.Depth

/-!
# INI exports of any file

The same as for the JSON exporter. The keys of blocks are read before there is anything below them,
and elements of an array that are no scalars are refused, so that the chains go from block to block.
-/

namespace Hrbl

open Lib Lib.Outcome

variable {σ : Type}

/-! ## Lines -/

/-- A key that can be read is read. -/
theorem Readable.iniKey_safe {r : Reader} {entry : IniSortEntry}
    (h : Readable r entry.keyPoolOffset entry.keyLength) : Safe (iniKey r entry) := by
  rw [iniKey]
  rcases h with hzero | ⟨key, hkey⟩
  · rw [hzero]
    exact safe_ok _
  · rw [hkey.length_eq, loadBytes_eq hkey.load_eq]
    exact safe_ok _

namespace HaltsOnly

variable {stop : ExportStop} {P : Prop} {core : Core σ} {r : Reader}

theorem breakFailed {α : Type} (blocks : List α) :
    HaltsOnly stop P (breakFailed blocks : ExportM σ (List α)) := by
  intro s _
  refine ⟨fun _ _ _ => trivial, ?_⟩
  intro e s' h
  cases h

theorem iniWriteScalarValue (hstop : stop ≠ .failed)
    (hsafe : stop = .fault → r.header.LayoutAccepted r.size ∧ r.header.Confined r.size)
    (offset : UInt64) : HaltsOnly stop P (iniWriteScalarValue core r offset) := by
  have hcore : core.KeepsIni (fun _ => True) (fun e _ => e = stop → P) := keepsIni hstop
  have hat : stop = .fault → Safe (kindAt r offset) := fun hfault =>
    kindAt_confined (hsafe hfault).1 (hsafe hfault).2.1 offset
  refine (fromReader hstop fun hfault hunsafe => ?_).bind fun kind => ?_
  · exact absurd (hat hfault) hunsafe
  cases kind with
  | null => exact Keeps.exportWriteAll hcore.toKeeps _
  | false => exact Keeps.exportWriteAll hcore.toKeeps _
  | true => exact Keeps.exportWriteAll hcore.toKeeps _
  | int64 =>
    refine (fromReader hstop fun hfault hunsafe => ?_).bind fun _ =>
      (Keeps.formatted (hcore.formatSigned _ _)).bind fun _ => Keeps.exportWriteAll hcore.toKeeps _
    exact absurd (scalarInt64At_safe (hat hfault)) hunsafe
  | uint64 =>
    refine (fromReader hstop fun hfault hunsafe => ?_).bind fun _ =>
      (Keeps.formatted (hcore.formatUnsigned _ _)).bind fun _ =>
        Keeps.exportWriteAll hcore.toKeeps _
    exact absurd (scalarUint64At_safe (hat hfault)) hunsafe
  | float64 =>
    refine (fromReader hstop fun hfault hunsafe => ?_).bind fun _ => Keeps.iniWriteFloat hcore _
    exact absurd (scalarFloat64At_safe (hat hfault)) hunsafe
  | string =>
    refine (fromReader hstop fun hfault hunsafe => ?_).bind_returns (fromReader_returns _)
      fun range hrange => ?_
    · exact absurd (scalarStringAt_safe (hat hfault)) hunsafe
    · exact Keeps.iniWriteEscaped hcore (.inr (scalarStringAt_inside hrange))
  | block => exact throw fun h => absurd h.symm hstop
  | array => exact throw fun h => absurd h.symm hstop

variable {entry : IniSortEntry}

theorem iniWriteKey (hstop : stop ≠ .failed)
    (hkey : stop = .fault → ¬Readable r entry.keyPoolOffset entry.keyLength → P) :
    HaltsOnly stop P (iniWriteKey core r entry) := by
  refine (fromReader hstop fun hfault hunsafe => ?_).bind fun _ =>
    Keeps.exportWriteAll (keepsIni hstop).toKeeps _
  exact hkey hfault fun hreadable => hunsafe hreadable.iniKey_safe

/-- The elements of an array are scalars where they are written. -/
theorem iniElementsLoop (hstop : stop ≠ .failed)
    (hsafe : stop = .fault → r.header.LayoutAccepted r.size ∧ r.header.Confined r.size)
    (hkey : stop = .fault → ¬Readable r entry.keyPoolOffset entry.keyLength → P)
    {count : Nat} {offset : UInt64} (hinside : offset.toNat + count * 8 ≤ r.base.bytes.length) :
    HaltsOnly stop P (iniElementsLoop core r entry count offset) := by
  have hlength := r.base.length_lt
  have hwidth : arrayElementSize.toNat = 8 := rfl
  have hcore : core.KeepsIni (fun _ => True) (fun e _ => e = stop → P) := keepsIni hstop
  induction count generalizing offset with
  | zero => exact .pure _
  | succ count ih =>
    rw [Hrbl.iniElementsLoop]
    refine (fromReader hstop fun _ hunsafe => ?_).bind fun element => ?_
    · exact absurd (loadU64_safe (by omega)) hunsafe
    refine (fromReader hstop fun hfault hunsafe => ?_).bind fun kind => ?_
    · obtain ⟨hlayout, hconfined⟩ := hsafe hfault
      exact absurd (kindAt_confined hlayout hconfined.1 element) hunsafe
    refine .ite (fun _ => fail hstop) fun _ => ?_
    refine (iniWriteKey hstop hkey).bind fun _ => ?_
    refine (Keeps.exportWriteAll hcore.toKeeps _).bind fun _ => ?_
    refine (iniWriteScalarValue hstop hsafe element).bind fun _ => ?_
    refine (Keeps.exportWriteAll hcore.toKeeps _).bind fun _ => ih ?_
    rw [UInt64.toNat_add, hwidth]
    omega

end HaltsOnly

/-! ## Entries -/

section

variable {core : Core σ} {options : Option ExportOptions} {r : Reader} {stop : ExportStop}
  {P : Prop} {block : Bytes → UInt64 → ExportM σ Unit}

/-- An entry stops an export where its key cannot be read or the block under it does. -/
def EntryHalts (r : Reader) (stop : ExportStop) (P : Prop)
    (block : Bytes → UInt64 → ExportM σ Unit) (entry : IniSortEntry) : Prop :=
  (stop = .fault → ¬Readable r entry.keyPoolOffset entry.keyLength → P) ∧
    (kindAt r entry.valueOffset = .ok .block →
      ∀ section_, HaltsOnly stop P (block section_ entry.valueOffset))

theorem iniEmitEntry_halts (hstop : stop ≠ .failed)
    (hsafe : stop = .fault → r.header.LayoutAccepted r.size ∧ r.header.Confined r.size)
    {entry : IniSortEntry} (hentry : EntryHalts r stop P block entry) (section_ : Bytes) :
    HaltsOnly stop P (iniEmitEntry core r block section_ entry) := by
  obtain ⟨hkey, hblock⟩ := hentry
  have hcore : core.KeepsIni (fun _ => True) (fun e _ => e = stop → P) := HaltsOnly.keepsIni hstop
  -- the seven kinds of scalars are written by the same calls
  have hscalar : HaltsOnly stop P (do
      iniWriteKey core r entry
      iniWriteLiteral core [0x20, 0x3D, 0x20]
      iniWriteScalarValue core r entry.valueOffset
      iniWriteLiteral core [0x0A]) := by
    refine (HaltsOnly.iniWriteKey hstop hkey).bind fun _ => ?_
    refine (Keeps.exportWriteAll hcore.toKeeps _).bind fun _ => ?_
    refine (HaltsOnly.iniWriteScalarValue hstop hsafe _).bind fun _ => ?_
    exact Keeps.exportWriteAll hcore.toKeeps _
  refine (HaltsOnly.fromReader hstop fun hfault hunsafe => ?_).bind_returns (fromReader_returns _)
    fun kind hkind => ?_
  · obtain ⟨hlayout, hconfined⟩ := hsafe hfault
    exact absurd (kindAt_confined hlayout hconfined.1 _) hunsafe
  cases kind with
  | block =>
    refine (Keeps.scratchAlloc hcore.toKeeps _).bind fun _ => ?_
    refine (HaltsOnly.fromReader hstop fun hfault hunsafe => ?_).bind fun _ => hblock hkind _
    exact hkey hfault fun hreadable => hunsafe hreadable.iniKey_safe
  | array =>
    refine (HaltsOnly.fromReader hstop fun _ hunsafe => ?_).bind_returns (fromReader_returns _) ?_
    · exact absurd (arrayBodyOffsets_safe _) hunsafe
    rintro ⟨header, start⟩ hbody
    exact HaltsOnly.iniElementsLoop hstop hsafe hkey (arrayBodyOffsets_inside hbody)
  | null => exact hscalar
  | false => exact hscalar
  | true => exact hscalar
  | int64 => exact hscalar
  | uint64 => exact hscalar
  | float64 => exact hscalar
  | string => exact hscalar

theorem iniArrangeEntries_perm (hsort : Sorts core.sortWithCompare) (entries : List IniSortEntry) :
    Returns (fun arranged => arranged.Perm entries) (iniArrangeEntries core options r entries) :=
  .ite (fun _ => sortEntries_perm hsort (fun _ _ => rfl) entries) fun _ => .pure (.refl _)

theorem iniArrangeEntries_halts {entries : List IniSortEntry}
    (hentries : ∀ e ∈ entries, EntryHalts r stop P block e) :
    HaltsOnly stop P (iniArrangeEntries core options r entries) :=
  .ite (fun _ => HaltsOnly.sortEntries (fun _ _ => rfl) fun hfault e he =>
    (hentries e he).1 hfault) fun _ => .pure _

/-- An entry that is gathered is put behind the blocks that there are. -/
theorem mem_gathered {e entry : IniSortEntry} {entries blocks : List IniSortEntry}
    (h : e ∈ blocks ++ [entry] ∨ e ∈ entries) : e ∈ blocks ∨ e ∈ entry :: entries := by
  rcases h with hblocks | hentries
  · rcases List.mem_append.mp hblocks with hblocks | hentry
    · exact .inl hblocks
    · exact .inr (List.mem_cons.mpr (.inl (List.mem_singleton.mp hentry)))
  · exact .inr (List.mem_cons_of_mem _ hentries)

/-- The blocks that are gathered are among those before and the entries. -/
theorem iniEntriesLoop_gathers (section_ : Bytes) (bytes : Nat)
    (entries blocks : List IniSortEntry) :
    Returns (fun gathered => ∀ e ∈ gathered, e ∈ blocks ∨ e ∈ entries)
      (iniEntriesLoop core r block section_ bytes entries blocks) := by
  induction entries generalizing blocks with
  | nil => exact .pure fun e he => .inl he
  | cons entry entries ih =>
    have hgather : Returns (fun gathered => ∀ e ∈ gathered, e ∈ blocks ∨ e ∈ entry :: entries)
        (iniEntriesLoop core r block section_ bytes entries (blocks ++ [entry])) :=
      (ih (blocks ++ [entry])).mono fun gathered hgathered e he => mem_gathered (hgathered e he)
    rw [iniEntriesLoop]
    refine .bind fun _ => .ite (fun _ => ?_) fun _ => .bind fun _ => ?_
    · exact .ite (fun _ => .bind fun _ => hgather) fun _ => hgather
    · exact (ih blocks).mono fun gathered hgathered e he =>
        (hgathered e he).imp_right (List.mem_cons_of_mem _)

section

variable (hstop : stop ≠ .failed)
  (hsafe : stop = .fault → r.header.LayoutAccepted r.size ∧ r.header.Confined r.size)

include hstop hsafe

theorem iniEntriesLoop_halts (section_ : Bytes) (bytes : Nat) {entries : List IniSortEntry}
    (hentries : ∀ e ∈ entries, EntryHalts r stop P block e) (blocks : List IniSortEntry) :
    HaltsOnly stop P (iniEntriesLoop core r block section_ bytes entries blocks) := by
  have hcore : core.KeepsIni (fun _ => True) (fun e _ => e = stop → P) := HaltsOnly.keepsIni hstop
  induction entries generalizing blocks with
  | nil => exact .pure _
  | cons entry entries ih =>
    obtain ⟨hentry, hrest⟩ := List.forall_mem_cons.mp hentries
    rw [iniEntriesLoop]
    refine (HaltsOnly.fromReader hstop fun hfault hunsafe => ?_).bind fun kind => ?_
    · obtain ⟨hlayout, hconfined⟩ := hsafe hfault
      exact absurd (kindAt_confined hlayout hconfined.1 _) hunsafe
    refine .ite (fun _ => ?_) fun _ => ?_
    · exact .ite (fun _ => (Keeps.scratchAlloc hcore.toKeeps _).bind fun _ => ih hrest _)
        fun _ => ih hrest _
    · exact (iniEmitEntry_halts hstop hsafe hentry section_).bind fun _ => ih hrest _

theorem iniBlocksLoop_halts (section_ : Bytes) {blocks : List IniSortEntry}
    (hblocks : ∀ e ∈ blocks, EntryHalts r stop P block e) :
    HaltsOnly stop P (iniBlocksLoop core r block section_ blocks) := by
  induction blocks with
  | nil => exact .pure _
  | cons entry blocks ih =>
    obtain ⟨hentry, hrest⟩ := List.forall_mem_cons.mp hblocks
    rw [iniBlocksLoop]
    exact (iniEmitEntry_halts hstop hsafe hentry section_).bind fun _ => ih hrest

/-- Both loops of a block, the header of its section before them. -/
theorem iniBody_halts (section_ : Bytes) (bytes : Nat) {entries : List IniSortEntry}
    (hentries : ∀ e ∈ entries, EntryHalts r stop P block e) : HaltsOnly stop P (do
      if section_.length ≠ 0 then do
        iniWriteLiteral core [0x5B]
        iniWrite core section_
        iniWriteLiteral core [0x5D, 0x0A]
      let blocks ← iniEntriesLoop core r block section_ bytes entries []
      if blocks ≠ [] then do
        iniWriteLiteral core [0x0A]
        iniBlocksLoop core r block section_ blocks) := by
  have hcore : core.KeepsIni (fun _ => True) (fun e _ => e = stop → P) := HaltsOnly.keepsIni hstop
  refine Keeps.header hcore section_ ?_
  refine (iniEntriesLoop_halts hstop hsafe section_ bytes hentries []).bind_returns
    (iniEntriesLoop_gathers section_ bytes entries []) fun blocks hgathered => ?_
  refine .ite (fun _ => (Keeps.exportWriteAll hcore.toKeeps _).bind fun _ => ?_) fun _ => .pure _
  refine iniBlocksLoop_halts hstop hsafe section_ fun e he => ?_
  rcases hgathered e he with hnone | hentry
  · cases hnone
  · exact hentries e hentry

end

/-! ## Blocks -/

variable {bad : UInt64 → Prop}

/-- What an export of a block can stop with, other than a failure. -/
theorem iniEmitBlock_halts (hstop : stop ≠ .failed) (hsort : Sorts core.sortWithCompare)
    (hsafe : stop = .fault → r.header.LayoutAccepted r.size ∧ r.header.Confined r.size)
    (hbad : ∀ offset, BadKey r offset → bad offset) (levels : Nat) (section_ : Bytes)
    (offset : UInt64) (hkind : kindAt r offset = .ok .block) :
    HaltsOnly stop (Halts r bad stop levels offset)
      (iniEmitBlock core options r levels section_ offset) := by
  induction levels generalizing section_ offset with
  | zero =>
    refine HaltsOnly.throw ?_
    rintro rfl
    exact .overflow offset
  | succ levels ih =>
    have hcore : core.KeepsIni (fun _ => True)
        (fun e _ => e = stop → Halts r bad stop (levels + 1) offset) := HaltsOnly.keepsIni hstop
    rw [iniEmitBlock]
    refine (HaltsOnly.fromReader hstop fun _ hunsafe => ?_).bind_returns (fromReader_returns _) ?_
    · exact absurd (blockBodyOffsets_safe offset) hunsafe
    rintro ⟨header, start⟩ hbody
    -- what follows the allocation, which is made only for a block with entries
    have hrest : HaltsOnly stop (Halts r bad stop (levels + 1) offset) (do
        let entries ← fromReader (copyEntries r iniSortEntryOf header.childCount.toNat start)
        let entries ← if header.childCount.toNat ≠ 0 then iniArrangeEntries core options r entries
          else pure entries
        if section_.length ≠ 0 then do
          iniWriteLiteral core [0x5B]
          iniWrite core section_
          iniWriteLiteral core [0x5D, 0x0A]
        let blocks ← iniEntriesLoop core r (iniEmitBlock core options r levels) section_
          (header.childCount.toNat * 24) entries []
        if blocks ≠ [] then do
          iniWriteLiteral core [0x0A]
          iniBlocksLoop core r (iniEmitBlock core options r levels) section_ blocks) := by
      refine (HaltsOnly.fromReader hstop fun _ hunsafe => ?_).bind_returns (fromReader_returns _) ?_
      · exact absurd (copyEntries_safe (blockBodyOffsets_inside hbody)) hunsafe
      intro items hitems
      obtain ⟨hlisted, -⟩ := copyEntries_block hkind hbody hitems
      have hentries : ∀ item ∈ items, EntryHalts r stop (Halts r bad stop (levels + 1) offset)
          (iniEmitBlock core options r levels) item := by
        intro item hitem
        obtain ⟨place, entry, hentry, rfl⟩ := hlisted item hitem
        constructor
        · rintro rfl hnot
          exact .here (hbad offset ⟨entry, hentry, fun hinside => hnot hinside.readable⟩)
        · intro hblock section'
          exact HaltsOnly.mono (ih section' _ hblock) fun h => .child (.entry hentry) h
      -- the entries are arranged only if there are any
      refine .ite (fun _ => ?_) fun _ => iniBody_halts hstop hsafe section_ _ hentries
      refine (iniArrangeEntries_halts hentries).bind_returns (iniArrangeEntries_perm hsort items)
        fun arranged hperm => ?_
      exact iniBody_halts hstop hsafe section_ _ fun item hitem =>
        hentries item (hperm.mem_iff.mp hitem)
    exact .ite (fun _ => (Keeps.scratchAlloc hcore.toKeeps _).bind fun _ => hrest) fun _ => hrest

/-! ## The root index -/

section

variable (hstop : stop ≠ .failed)
  (hsafe : stop = .fault → r.header.LayoutAccepted r.size ∧ r.header.Confined r.size)

include hstop hsafe

theorem iniRootLoop_halts (bytes : Nat) {entries : List IniSortEntry}
    (hentries : ∀ e ∈ entries, EntryHalts r stop P block e) (blocks : List IniSortEntry) :
    HaltsOnly stop P (iniRootLoop core r block bytes entries blocks) := by
  induction entries generalizing blocks with
  | nil => exact .pure _
  | cons entry entries ih =>
    obtain ⟨hentry, hrest⟩ := List.forall_mem_cons.mp hentries
    rw [iniRootLoop]
    refine Keeps.get.bind fun _ => .ite (fun _ => .pure _) fun _ => ?_
    cases hkind : kindAt r entry.valueOffset with
    | fault =>
      refine HaltsOnly.throw fun hfault => ?_
      obtain ⟨hlayout, hconfined⟩ := hsafe hfault.symm
      have hkindSafe := kindAt_confined hlayout hconfined.1 entry.valueOffset
      rw [hkind] at hkindSafe
      exact absurd hkindSafe not_safe_fault
    | no => exact HaltsOnly.breakFailed blocks
    | ok kind =>
      refine .ite (fun _ => ?_) fun _ => ?_
      -- a block is kept for later, when the list of the blocks has room or is given some
      · have hgather : ∀ allocated : Bool, HaltsOnly stop P
            (if allocated then iniRootLoop core r block bytes entries (blocks ++ [entry])
              else breakFailed blocks) :=
          fun allocated => .ite (fun _ => ih hrest _) fun _ => HaltsOnly.breakFailed blocks
        exact .ite (fun _ => HaltsOnly.callCore hgather) fun _ => (Keeps.pure _).bind hgather
      · exact (HaltsOnly.attempt (iniEmitEntry_halts hstop hsafe hentry [])).bind fun _ =>
          .ite (fun _ => ih hrest _) fun _ => .pure _

theorem iniRootBlocksLoop_halts {blocks : List IniSortEntry}
    (hblocks : ∀ e ∈ blocks, EntryHalts r stop P block e) :
    HaltsOnly stop P (iniRootBlocksLoop core r block blocks) := by
  induction blocks with
  | nil => exact .pure _
  | cons entry blocks ih =>
    obtain ⟨hentry, hrest⟩ := List.forall_mem_cons.mp hblocks
    rw [iniRootBlocksLoop]
    exact Keeps.get.bind fun _ => .ite (fun _ => .pure _) fun _ =>
      (HaltsOnly.attempt (iniEmitEntry_halts hstop hsafe hentry [])).bind fun _ =>
        .ite (fun _ => ih hrest) fun _ => .pure _

end

/-- The blocks that are gathered at the root are among those before and the entries. -/
theorem iniRootLoop_gathers (bytes : Nat) (entries blocks : List IniSortEntry) :
    Returns (fun gathered => ∀ e ∈ gathered, e ∈ blocks ∨ e ∈ entries)
      (iniRootLoop core r block bytes entries blocks) := by
  induction entries generalizing blocks with
  | nil => exact .pure fun e he => .inl he
  | cons entry entries ih =>
    have hstay : Returns (fun gathered => ∀ e ∈ gathered, e ∈ blocks ∨ e ∈ entry :: entries)
        (pure blocks : ExportM σ (List IniSortEntry)) := .pure fun e he => .inl he
    have hbreak : Returns (fun gathered => ∀ e ∈ gathered, e ∈ blocks ∨ e ∈ entry :: entries)
        (breakFailed blocks : ExportM σ (List IniSortEntry)) := .bind fun _ => hstay
    have hgather : Returns (fun gathered => ∀ e ∈ gathered, e ∈ blocks ∨ e ∈ entry :: entries)
        (iniRootLoop core r block bytes entries (blocks ++ [entry])) :=
      (ih (blocks ++ [entry])).mono fun gathered hgathered e he => mem_gathered (hgathered e he)
    rw [iniRootLoop]
    refine .bind fun _ => .ite (fun _ => hstay) fun _ => ?_
    cases kindAt r entry.valueOffset with
    | fault => exact .throw _
    | no => exact hbreak
    | ok kind =>
      refine .ite (fun _ => ?_) fun _ => .bind fun _ => .ite (fun _ => ?_) fun _ => hstay
      · exact .ite (fun _ => .bind fun _ => .ite (fun _ => hgather) fun _ => hbreak)
          fun _ => .bind fun _ => .ite (fun _ => hgather) fun _ => hbreak
      · exact (ih blocks).mono fun gathered hgathered e he =>
          (hgathered e he).imp_right (List.mem_cons_of_mem _)

theorem iniRoots_halts (hstop : stop ≠ .failed) (hsort : Sorts core.sortWithCompare)
    (hsafe : stop = .fault → r.header.LayoutAccepted r.size ∧ r.header.Confined r.size)
    (hroots : stop = .fault →
      r.header.rootIndexOffset.toNat + r.header.rootCount.toNat * 24 ≤ r.base.bytes.length)
    (hbad : ∀ offset, BadKey r offset → bad offset) (levels : Nat) :
    HaltsOnly stop (RootHalts r (KeyInside r) bad stop levels)
      (iniRoots core options r levels) := by
  refine .ite (fun _ => .pure _) fun _ => ?_
  refine (HaltsOnly.scratchAlloc (HaltsOnly.throw fun h => absurd h.symm hstop) _).bind fun _ => ?_
  refine (HaltsOnly.fromReader hstop fun hfault hunsafe => ?_).bind_returns (fromReader_returns _) ?_
  · exact absurd (copyEntries_safe (hroots hfault)) hunsafe
  intro items hitems
  obtain ⟨hlisted, -⟩ := copyEntries_root hitems
  have hentries : ∀ item ∈ items, EntryHalts r stop (RootHalts r (KeyInside r) bad stop levels)
      (iniEmitBlock core options r levels) item := by
    intro item hitem
    obtain ⟨place, entry, hentry, rfl⟩ := hlisted item hitem
    constructor
    · intro hfault hnot
      exact ⟨entry, hentry, .inl ⟨hfault, fun hinside => hnot hinside.readable⟩⟩
    · intro hblock section_
      exact HaltsOnly.mono (iniEmitBlock_halts hstop hsort hsafe hbad levels section_ _ hblock)
        fun h => ⟨entry, hentry, .inr h⟩
  refine (iniArrangeEntries_halts hentries).bind_returns (iniArrangeEntries_perm hsort items) ?_
  intro arranged hperm
  -- the arranged entries are the same ones, in another order
  have harranged : ∀ item ∈ arranged, EntryHalts r stop
      (RootHalts r (KeyInside r) bad stop levels) (iniEmitBlock core options r levels) item :=
    fun item hitem => hentries item (hperm.mem_iff.mp hitem)
  refine (iniRootLoop_halts hstop hsafe _ harranged []).bind_returns (iniRootLoop_gathers _ _ _) ?_
  intro blocks hgathered
  refine iniRootBlocksLoop_halts hstop hsafe fun item hitem => ?_
  rcases hgathered item hitem with hnone | harrangedItem
  · cases hnone
  · exact harranged item harrangedItem

end

end Hrbl
