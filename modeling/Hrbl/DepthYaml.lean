import Hrbl.Depth

/-!
# YAML exports of any file

The same as for the JSON exporter, where a text also must not be longer than an `int` can say.
-/

namespace Hrbl

open Lib Lib.Outcome

variable {σ : Type}

/-! ## Events -/

/-- A formatter stays in the buffer that it is given. -/
structure Core.Fits (core : Core σ) : Prop where
  formatSigned : ∀ size value world text,
    (core.formatSigned size value world).1 = some text → text.length ≤ size
  formatUnsigned : ∀ size value world text,
    (core.formatUnsigned size value world).1 = some text → text.length ≤ size
  formatDouble : ∀ size bits world text,
    (core.formatDouble size bits world).1 = some text → text.length ≤ size

/-- A text of which all bytes are there and that an `int` can count. -/
theorem scalarText_safe {data : Bytes} {length : Nat} (hle : length ≤ data.length)
    (hshort : length < 2 ^ 31) : Safe (scalarText data length) := by
  have hlength : (data.take length).length = length := by
    rw [List.length_take]
    omega
  have htext : scalarText data (data.take length).length = .ok (data.take length) :=
    scalarText_eq (by rw [Short, hlength]; exact hshort) (List.take_prefix _ _)
  rw [hlength] at htext
  rw [htext]
  exact safe_ok _

namespace HaltsOnly

variable {stop : ExportStop} {P : Prop} {core : Core σ} {lib : LibYaml σ} {r : Reader}

theorem yamlEmitterEmit (event : Yaml.Event) :
    HaltsOnly stop P (yamlEmitterEmit core lib event) := by
  intro s _
  refine ⟨fun _ _ _ => trivial, ?_⟩
  intro e s' h
  cases h

theorem yamlEmit (hstop : stop ≠ .failed) (event : Yaml.Event) :
    HaltsOnly stop P (yamlEmit core lib event) :=
  (yamlEmitterEmit event).bind fun _ => .ite (fun _ => .pure _) fun _ => fail hstop

theorem yamlEmitRaw (hstop : stop ≠ .failed) (event : Yaml.Event) :
    HaltsOnly stop P (yamlEmitRaw core lib event) :=
  (yamlEmitterEmit event).bind fun _ => .ite (fun _ => .pure _) fun _ =>
    throw fun h => absurd h.symm hstop

theorem yamlEmitScalarDoubleQuoted (hstop : stop ≠ .failed) {data : Bytes} {length : Nat}
    (hgood : stop = .fault → ¬(length ≤ data.length ∧ length < 2 ^ 31) → P) :
    HaltsOnly stop P (yamlEmitScalarDoubleQuoted core lib data length) := by
  refine (fromReader hstop fun hfault hunsafe => ?_).bind fun _ => yamlEmit hstop _
  exact hgood hfault fun hgood => hunsafe (scalarText_safe hgood.1 hgood.2)

/-- A text that the exporter has is emitted when it is short. -/
theorem yamlEmitText (hstop : stop ≠ .failed) {text : Bytes}
    (hshort : stop = .fault → text.length < 2 ^ 31) :
    HaltsOnly stop P (yamlEmitText core lib text) := by
  refine (fromReader hstop fun hfault hunsafe => ?_).bind fun _ => yamlEmit hstop _
  exact absurd (scalarText_safe le_rfl (hshort hfault)) hunsafe

theorem formatted_returns {call : σ → Option Bytes × σ} {n : Nat}
    (hcall : ∀ world text, (call world).1 = some text → text.length ≤ n) :
    Returns (fun text : Bytes => text.length ≤ n) (formatted call) := by
  intro s a s' h
  rw [formatted, callCore_bind] at h
  cases hresult : (call s.world).1 with
  | some text =>
    rw [hresult] at h
    cases h
    exact hcall _ _ hresult
  | none =>
    rw [hresult] at h
    cases h

/-- A number is formatted into the buffer and emitted. -/
theorem yamlNumber (hstop : stop ≠ .failed) {call : σ → Option Bytes × σ}
    (hcall : stop = .fault → ∀ world text, (call world).1 = some text → text.length ≤ 64) :
    HaltsOnly stop P (do
      let text ← formatted call
      Hrbl.yamlEmitText core lib text) := by
  have hserved : Served (fun _ => True) (fun e _ => e = stop → P) (· ≠ none) call := by
    intro s _
    exact ⟨fun _ => trivial, fun _ h => absurd h.symm hstop⟩
  by_cases hfault : stop = .fault
  · refine (Keeps.formatted hserved).bind_returns (formatted_returns (hcall hfault)) ?_
    intro text hlength
    exact yamlEmitText hstop fun _ => by omega
  · exact (Keeps.formatted hserved).bind fun _ => yamlEmitText hstop fun h => absurd h hfault

theorem modified {f : ExportState σ → ExportState σ} :
    HaltsOnly stop P (modify f : ExportM σ PUnit) := by
  intro s _
  refine ⟨fun _ _ _ => trivial, ?_⟩
  intro e s' h
  cases h

end HaltsOnly

/-- An attempt that returns `true` has returned. -/
theorem attempt_returns {Q : Prop} {m : ExportM σ Unit} (hm : Returns (fun _ => Q) m) :
    Returns (fun done => done = true → Q) (attempt m) := by
  intro s a s' h hdone
  rw [attempt] at h
  cases hrun : m s with
  | ok b s₁ => exact hm s b s₁ hrun
  | error e₁ s₁ =>
    rw [hrun] at h
    cases e₁ with
    | failed =>
      cases h
      cases hdone
    | fault => cases h
    | overflow => cases h

/-! ## Values -/

section

variable {core : Core σ} {lib : LibYaml σ} {options : Option ExportOptions} {r : Reader}
  {stop : ExportStop} {P : Prop} {child : UInt64 → ExportM σ Unit}

/-- A key that is in the file and short. -/
def ShortKey (r : Reader) (entry : Entry) : Prop :=
  KeyInside r entry ∧ entry.keyLength.toNat < 2 ^ 31

/-- A block with a key that is not in the file or not short, or a string that is not short. -/
def BadText (r : Reader) (offset : UInt64) : Prop :=
  (∃ entry, EntryOf r offset entry ∧ ¬ShortKey r entry) ∨
    ∃ range, scalarStringAt r offset = .ok range ∧ ¬range.length.toNat < 2 ^ 31

theorem yamlArrangeEntries_perm (hsort : Sorts core.sortWithCompare)
    (entries : List YamlSortEntry) : Returns (fun arranged => arranged.Perm entries)
      (yamlArrangeEntries core options r entries) :=
  .ite (fun _ => sortEntries_perm hsort (fun _ _ => rfl) entries) fun _ => .pure (.refl _)

theorem yamlArrangeEntries_halts {entries : List YamlSortEntry}
    (hread : stop = .fault → ∀ e ∈ entries, ¬Readable r e.keyPoolOffset e.keyLength → P) :
    HaltsOnly stop P (yamlArrangeEntries core options r entries) :=
  .ite (fun _ => HaltsOnly.sortEntries (fun _ _ => rfl) hread) fun _ => .pure _

theorem yamlEntriesLoop_halts (hstop : stop ≠ .failed) {entries : List YamlSortEntry}
    (hentries : ∀ e ∈ entries,
      (stop = .fault → ¬(e.keyLength.toNat ≤ (r.base.from (e.keyPoolOffset + 4)).length ∧
        e.keyLength.toNat < 2 ^ 31) → P) ∧ HaltsOnly stop P (child e.valueOffset)) :
    HaltsOnly stop P (yamlEntriesLoop core lib r child entries) := by
  induction entries with
  | nil => exact .pure _
  | cons entry entries ih =>
    obtain ⟨⟨hkey, hchild⟩, hrest⟩ := List.forall_mem_cons.mp hentries
    rw [yamlEntriesLoop]
    refine (HaltsOnly.yamlEmitScalarDoubleQuoted hstop hkey).bind fun _ => ?_
    exact hchild.bind fun _ => ih hrest

theorem yamlElementsLoop_halts (hstop : stop ≠ .failed) {count : Nat} {offset : UInt64}
    (hinside : offset.toNat + count * 8 ≤ r.base.bytes.length)
    (helements : ∀ i < count, ∀ c, HasAt r.base.bytes (offset.toNat + i * 8) (le64 c) →
      HaltsOnly stop P (child c)) :
    HaltsOnly stop P (yamlElementsLoop r child count offset) := by
  have hlength := r.base.length_lt
  have hwidth : arrayElementSize.toNat = 8 := rfl
  induction count generalizing offset with
  | zero => exact .pure _
  | succ count ih =>
    have hnext : (offset + arrayElementSize).toNat = offset.toNat + 8 := by
      rw [UInt64.toNat_add, hwidth]
      omega
    rw [yamlElementsLoop]
    refine (HaltsOnly.fromReader hstop fun _ hunsafe => ?_).bind_returns (fromReader_returns _)
      fun c hc => ?_
    · exact absurd (loadU64_safe (by omega)) hunsafe
    · have hat := loadU64_eq_ok.mp hc
      refine (helements 0 (Nat.succ_pos count) c (by simpa using hat)).bind fun _ => ih ?_ ?_
      · rw [hnext]
        omega
      · intro i hi c hc
        refine helements (i + 1) (Nat.succ_lt_succ hi) c ?_
        rwa [Nat.succ_mul, Nat.add_comm (i * 8), ← Nat.add_assoc, ← hnext]

variable {bad : UInt64 → Prop} {levels : Nat} {offset : UInt64}

theorem yamlEmitBlock_halts (hstop : stop ≠ .failed) (hsort : Sorts core.sortWithCompare)
    (hbad : BadText r offset → bad offset) (hkind : kindAt r offset = .ok .block)
    (hchild : ∀ c, HaltsOnly stop (Halts r bad stop levels c) (child c)) :
    HaltsOnly stop (Halts r bad stop (levels + 1) offset)
      (yamlEmitBlock core lib options r child offset) := by
  have hcore : core.KeepsJson (fun _ => True)
      (fun e _ => e = stop → Halts r bad stop (levels + 1) offset) := HaltsOnly.keepsJson hstop
  -- what follows the allocation, which is made only for a block with entries
  have hrest : ∀ {header : BlockHeader} {start : UInt64},
      blockBodyOffsets r offset = .ok (header, start) →
      HaltsOnly stop (Halts r bad stop (levels + 1) offset) (do
        let entries ← fromReader (copyEntries r yamlSortEntryOf header.childCount.toNat start)
        let entries ← if header.childCount.toNat ≠ 0 then yamlArrangeEntries core options r entries
          else pure entries
        yamlEntriesLoop core lib r child entries
        yamlEmitMappingEnd core lib) := by
    intro header start hbody
    refine (HaltsOnly.fromReader hstop fun _ hunsafe => ?_).bind_returns (fromReader_returns _) ?_
    · exact absurd (copyEntries_safe (blockBodyOffsets_inside hbody)) hunsafe
    intro items hitems
    obtain ⟨hlisted, -⟩ := copyEntries_block hkind hbody hitems
    -- the loop over the entries in any order, sorted or as they are stored
    have hloop : ∀ arranged : List YamlSortEntry, arranged.Perm items →
        HaltsOnly stop (Halts r bad stop (levels + 1) offset) (do
          yamlEntriesLoop core lib r child arranged
          yamlEmitMappingEnd core lib) := by
      intro arranged hperm
      refine (yamlEntriesLoop_halts hstop ?_).bind fun _ => HaltsOnly.yamlEmit hstop _
      intro item hitem
      obtain ⟨place, entry, hentry, rfl⟩ := hlisted item (hperm.mem_iff.mp hitem)
      constructor
      · rintro rfl hnot
        exact .here (hbad (.inl ⟨entry, hentry, fun hgood =>
          hnot ⟨keyInside_iff.mp hgood.1, hgood.2⟩⟩))
      · exact HaltsOnly.mono (hchild _) fun h => .child (.entry hentry) h
    refine .ite (fun _ => ?_) fun _ => ?_
    · refine (yamlArrangeEntries_halts ?_).bind_returns (yamlArrangeEntries_perm hsort items) hloop
      rintro rfl item hitem hnot
      obtain ⟨place, entry, hentry, rfl⟩ := hlisted item hitem
      exact .here (hbad (.inl ⟨entry, hentry, fun hgood => hnot hgood.1.readable⟩))
    · exact hloop items (.refl _)
  unfold yamlEmitBlock
  refine (HaltsOnly.fromReader hstop fun _ hunsafe => ?_).bind_returns (fromReader_returns _) ?_
  · exact absurd (blockBodyOffsets_safe offset) hunsafe
  rintro ⟨header, start⟩ hbody
  refine (HaltsOnly.yamlEmit hstop _).bind fun _ => ?_
  refine .ite (fun _ => ?_) fun _ => hrest hbody
  exact (Keeps.scratchAlloc hcore.toKeeps _).bind fun _ => hrest hbody

theorem yamlEmitArray_halts (hstop : stop ≠ .failed) (hkind : kindAt r offset = .ok .array)
    (hchild : ∀ c, HaltsOnly stop (Halts r bad stop levels c) (child c)) :
    HaltsOnly stop (Halts r bad stop (levels + 1) offset)
      (yamlEmitArray core lib r child offset) := by
  unfold yamlEmitArray
  refine (HaltsOnly.fromReader hstop fun _ hunsafe => ?_).bind_returns (fromReader_returns _) ?_
  · exact absurd (arrayBodyOffsets_safe offset) hunsafe
  rintro ⟨header, start⟩ hbody
  refine (HaltsOnly.yamlEmit hstop _).bind fun _ => ?_
  refine (yamlElementsLoop_halts hstop (arrayBodyOffsets_inside hbody) ?_).bind fun _ =>
    HaltsOnly.yamlEmit hstop _
  intro i hi c hat
  refine HaltsOnly.mono (hchild c) fun h => .child (.element ?_) h
  exact ⟨hkind, header, start, hbody, i, hi, hat⟩

/-- The words and the formatted text of a `double`. -/
theorem yamlEmitFloat_halts (hstop : stop ≠ .failed) (hfits : stop = .fault → core.Fits)
    (bits : UInt64) : HaltsOnly stop P (yamlEmitFloat core lib bits) := by
  have hword : ∀ {text : Bytes}, text.length < 2 ^ 31 → HaltsOnly stop P
      (yamlEmitText core lib text) := fun hshort => HaltsOnly.yamlEmitText hstop fun _ => hshort
  refine .ite (fun _ => hword (by decide)) fun _ => ?_
  refine .ite (fun _ => ?_) fun _ => ?_
  · exact .ite (fun _ => hword (by decide)) fun _ => hword (by decide)
  · exact HaltsOnly.yamlNumber hstop fun hfault => (hfits hfault).formatDouble 64 bits

/-- What an export of a value can stop with, other than a failure. -/
theorem yamlEmitValue_halts (hstop : stop ≠ .failed) (hsort : Sorts core.sortWithCompare)
    (hfits : stop = .fault → core.Fits)
    (hsafe : stop = .fault → r.header.LayoutAccepted r.size ∧ r.header.Confined r.size)
    (hbad : ∀ offset, BadText r offset → bad offset) (levels : Nat) (offset : UInt64) :
    HaltsOnly stop (Halts r bad stop levels offset)
      (yamlEmitValue core lib options r levels offset) := by
  induction levels generalizing offset with
  | zero =>
    refine HaltsOnly.throw ?_
    rintro rfl
    exact .overflow offset
  | succ levels ih =>
    have hword : ∀ {text : Bytes}, text.length < 2 ^ 31 →
        HaltsOnly stop (Halts r bad stop (levels + 1) offset) (yamlEmitText core lib text) :=
      fun hshort => HaltsOnly.yamlEmitText hstop fun _ => hshort
    have hat : stop = .fault → Safe (kindAt r offset) := fun hfault =>
      kindAt_confined (hsafe hfault).1 (hsafe hfault).2.1 offset
    refine (HaltsOnly.fromReader hstop fun hfault hunsafe => ?_).bind_returns
      (fromReader_returns _) ?_
    · exact absurd (hat hfault) hunsafe
    intro kind hkind
    cases kind with
    | null => exact hword (by decide)
    | false => exact hword (by decide)
    | true => exact hword (by decide)
    | int64 =>
      refine (HaltsOnly.fromReader hstop fun hfault hunsafe => ?_).bind fun value =>
        HaltsOnly.yamlNumber hstop fun hfault => (hfits hfault).formatSigned 64 value
      exact absurd (scalarInt64At_safe (hat hfault)) hunsafe
    | uint64 =>
      refine (HaltsOnly.fromReader hstop fun hfault hunsafe => ?_).bind fun value =>
        HaltsOnly.yamlNumber hstop fun hfault => (hfits hfault).formatUnsigned 64 value
      exact absurd (scalarUint64At_safe (hat hfault)) hunsafe
    | float64 =>
      refine (HaltsOnly.fromReader hstop fun hfault hunsafe => ?_).bind fun bits =>
        yamlEmitFloat_halts hstop hfits bits
      exact absurd (scalarFloat64At_safe (hat hfault)) hunsafe
    | string =>
      refine (HaltsOnly.fromReader hstop fun hfault hunsafe => ?_).bind_returns
        (fromReader_returns _) fun range hrange => ?_
      · exact absurd (scalarStringAt_safe (hat hfault)) hunsafe
      · refine HaltsOnly.yamlEmitScalarDoubleQuoted hstop ?_
        -- libyaml takes the length as an `int`, so a text of 2^31 bytes is a bad one
        rintro rfl hnot
        exact .here (hbad offset (.inr ⟨range, hrange, fun hshort =>
          hnot ⟨scalarStringAt_inside hrange, hshort⟩⟩))
    | block => exact yamlEmitBlock_halts hstop hsort (hbad offset) hkind ih
    | array => exact yamlEmitArray_halts hstop hkind ih

/-! ## The root index -/

theorem yamlRoots_halts (hstop : stop ≠ .failed) (hsort : Sorts core.sortWithCompare)
    (hfits : stop = .fault → core.Fits)
    (hsafe : stop = .fault → r.header.LayoutAccepted r.size ∧ r.header.Confined r.size)
    (hroots : stop = .fault →
      r.header.rootIndexOffset.toNat + r.header.rootCount.toNat * 24 ≤ r.base.bytes.length)
    (hbad : ∀ offset, BadText r offset → bad offset) (levels : Nat) :
    HaltsOnly stop (RootHalts r (ShortKey r) bad stop levels)
      (yamlRoots core lib options r levels) := by
  refine .ite (fun _ => ?_) fun _ => ?_
  · exact (HaltsOnly.yamlEmitRaw hstop _).bind fun _ =>
      (HaltsOnly.yamlEmitRaw hstop _).bind fun _ => .pure _
  refine (HaltsOnly.scratchAlloc (HaltsOnly.throw fun h => absurd h.symm hstop) _).bind fun _ => ?_
  refine (HaltsOnly.fromReader hstop fun hfault hunsafe => ?_).bind_returns (fromReader_returns _) ?_
  · exact absurd (copyEntries_safe (hroots hfault)) hunsafe
  intro items hitems
  obtain ⟨hlisted, -⟩ := copyEntries_root hitems
  refine (yamlArrangeEntries_halts ?_).bind_returns (yamlArrangeEntries_perm hsort items) ?_
  · intro hfault item hitem hnot
    obtain ⟨place, entry, hentry, rfl⟩ := hlisted item hitem
    exact ⟨entry, hentry, .inl ⟨hfault, fun hgood => hnot hgood.1.readable⟩⟩
  · intro arranged hperm
    refine (HaltsOnly.yamlEmit hstop _).bind fun _ => ?_
    refine (HaltsOnly.attempt (yamlEntriesLoop_halts hstop ?_)).bind fun _ => ?_
    · intro item hitem
      obtain ⟨place, entry, hentry, rfl⟩ := hlisted item (hperm.mem_iff.mp hitem)
      constructor
      · intro hfault hnot
        exact ⟨entry, hentry, .inl ⟨hfault, fun hgood => hnot ⟨keyInside_iff.mp hgood.1, hgood.2⟩⟩⟩
      · exact HaltsOnly.mono (yamlEmitValue_halts hstop hsort hfits hsafe hbad levels _) fun h =>
          ⟨entry, hentry, .inr h⟩
    · exact (HaltsOnly.attempt (HaltsOnly.yamlEmit hstop _)).bind fun _ => .pure _

theorem yamlExport_halts (hstop : stop ≠ .failed) (hsort : Sorts core.sortWithCompare)
    (hfits : stop = .fault → core.Fits)
    (hsafe : stop = .fault → r.header.LayoutAccepted r.size ∧ r.header.Confined r.size)
    (hroots : stop = .fault →
      r.header.rootIndexOffset.toNat + r.header.rootCount.toNat * 24 ≤ r.base.bytes.length)
    (hbad : ∀ offset, BadText r offset → bad offset) (levels : Nat) :
    HaltsOnly stop (RootHalts r (ShortKey r) bad stop levels)
      (yamlExport core lib options r levels) := by
  have hfailed : HaltsOnly stop (RootHalts r (ShortKey r) bad stop levels)
      (throw .failed : ExportM σ Unit) := HaltsOnly.throw fun h => absurd h.symm hstop
  refine HaltsOnly.callCore fun _ => .ite (fun _ => ?_) fun _ => hfailed
  refine HaltsOnly.modified.bind fun _ => ?_
  refine (HaltsOnly.yamlEmitRaw hstop _).bind fun _ => ?_
  refine (HaltsOnly.yamlEmitRaw hstop _).bind fun _ => ?_
  refine (yamlRoots_halts hstop hsort hfits hsafe hroots hbad levels).bind fun _ => ?_
  refine (HaltsOnly.yamlEmitterEmit _).bind fun _ => ?_
  refine (HaltsOnly.yamlEmitterEmit _).bind fun _ => ?_
  refine HaltsOnly.modified.bind fun _ => ?_
  exact .ite (fun _ => .pure _) fun _ => hfailed

end

/-! ## Exports that return -/

section

variable {core : Core σ} {lib : LibYaml σ} {r : Reader} {Q : UInt64 → Prop}
  {child : UInt64 → ExportM σ Unit} (hchild : ∀ c, Returns (fun _ => Q c) (child c))

include hchild

theorem yamlEntriesLoop_returns (entries : List YamlSortEntry) :
    Returns (fun _ => ∀ e ∈ entries, Q e.valueOffset)
      (yamlEntriesLoop core lib r child entries) := by
  induction entries with
  | nil =>
    refine .pure ?_
    intro e he
    cases he
  | cons entry entries ih =>
    rw [yamlEntriesLoop]
    refine .bind fun _ => (hchild _).bind_of fun _ hfirst => ?_
    exact ih.mono fun _ hrest => List.forall_mem_cons.mpr ⟨hfirst, hrest⟩

theorem yamlElementsLoop_returns (count : Nat) (offset : UInt64)
    (hinside : offset.toNat + count * 8 ≤ r.base.bytes.length) :
    Returns (fun _ => ∀ i < count, ∀ c, HasAt r.base.bytes (offset.toNat + i * 8) (le64 c) → Q c)
      (yamlElementsLoop r child count offset) := by
  have hlength := r.base.length_lt
  have hwidth : arrayElementSize.toNat = 8 := rfl
  induction count generalizing offset with
  | zero =>
    refine .pure ?_
    intro i hi
    omega
  | succ count ih =>
    have hnext : (offset + arrayElementSize).toNat = offset.toNat + 8 := by
      rw [UInt64.toNat_add, hwidth]
      omega
    rw [yamlElementsLoop]
    refine (fromReader_returns _).bind_of fun c hc => (hchild c).bind_of fun _ hfirst => ?_
    refine (ih _ (by rw [hnext]; omega)).mono fun _ hrest => ?_
    intro i hi c' hat
    cases i with
    | zero =>
      rw [Nat.zero_mul, Nat.add_zero] at hat
      rw [loadU64_of_hasAt hat] at hc
      cases hc
      exact hfirst
    | succ i =>
      rw [Nat.succ_mul, Nat.add_comm (i * 8), ← Nat.add_assoc, ← hnext] at hat
      exact hrest i (Nat.lt_of_succ_lt_succ hi) c' hat

end

section

variable {core : Core σ} (hsort : Sorts core.sortWithCompare) (lib : LibYaml σ)
  (options : Option ExportOptions) (r : Reader)

include hsort

/-- An export of a value that returns has been at the end of every chain below it. -/
theorem yamlEmitValue_returns (levels : Nat) (offset : UInt64) :
    Returns (fun _ => Bounded r levels offset)
      (yamlEmitValue core lib options r levels offset) := by
  induction levels generalizing offset with
  | zero => exact .throw _
  | succ levels ih =>
    refine (fromReader_returns _).bind_of fun kind hkind => ?_
    by_cases hblock : kind = .block
    · subst hblock
      refine (fromReader_returns _).bind_of ?_
      rintro ⟨header, start⟩ hbody
      have hrest : Returns (fun _ => Bounded r (levels + 1) offset) (do
          let entries ← fromReader (copyEntries r yamlSortEntryOf header.childCount.toNat start)
          let entries ← if header.childCount.toNat ≠ 0 then
            yamlArrangeEntries core options r entries else pure entries
          yamlEntriesLoop core lib r (yamlEmitValue core lib options r levels) entries
          yamlEmitMappingEnd core lib) := by
        refine (fromReader_returns _).bind_of fun items hitems => ?_
        have hloop : ∀ arranged : List YamlSortEntry, arranged.Perm items →
            Returns (fun _ => Bounded r (levels + 1) offset) (do
              yamlEntriesLoop core lib r (yamlEmitValue core lib options r levels) arranged
              yamlEmitMappingEnd core lib) := by
          intro arranged hperm
          refine (yamlEntriesLoop_returns ih _).bind_of fun _ hvalues => ?_
          refine returns_fact (Bounded.of_children fun c hchild => ?_)
          obtain ⟨entry, hentry, rfl⟩ := hchild.of_block hkind
          obtain ⟨place, hitem⟩ := (copyEntries_block hkind hbody hitems).2 entry hentry
          exact hvalues _ (hperm.mem_iff.mpr hitem)
        refine .ite (fun _ => ?_) fun _ => hloop items (.refl _)
        exact (yamlArrangeEntries_perm hsort items).bind_of hloop
      refine .bind fun _ => ?_
      exact .ite (fun _ => .bind fun _ => hrest) fun _ => hrest
    by_cases harray : kind = .array
    · subst harray
      refine (fromReader_returns _).bind_of ?_
      rintro ⟨header, start⟩ hbody
      refine .bind fun _ => ?_
      refine (yamlElementsLoop_returns ih _ _ (arrayBodyOffsets_inside hbody)).bind_of
        fun _ hvalues => ?_
      refine returns_fact (Bounded.of_children fun c hchild => ?_)
      obtain ⟨-, header', start', hbody', i, hi, hat⟩ := hchild.of_array hkind
      rw [hbody] at hbody'
      cases hbody'
      exact hvalues i hi c hat
    · exact returns_fact (Bounded.of_scalar hkind hblock harray)

theorem yamlRoots_returns (levels : Nat) :
    Returns (fun done => done = true → ∀ offset, IsRoot r offset → Bounded r levels offset)
      (yamlRoots core lib options r levels) := by
  refine .ite (fun hnone => ?_) fun _ => ?_
  · intro _ _ _ _
    rintro - offset ⟨entry, ⟨i, hi, -⟩, -⟩
    rw [hnone] at hi
    exact absurd hi (Nat.not_lt_zero i)
  · refine .bind fun _ => (fromReader_returns _).bind_of fun items hitems => ?_
    refine (yamlArrangeEntries_perm hsort items).bind_of fun arranged hperm => .bind fun _ => ?_
    refine (attempt_returns (yamlEntriesLoop_returns
      (yamlEmitValue_returns hsort lib options r levels) _)).bind_of fun emitted hemitted => ?_
    refine .bind fun ended => .pure ?_
    rintro hdone offset ⟨entry, hentry, rfl⟩
    obtain ⟨place, hitem⟩ := (copyEntries_root hitems).2 entry hentry
    exact hemitted (Bool.and_eq_true_iff.mp hdone).1 _ (hperm.mem_iff.mpr hitem)

/-- An export that returns has been at the end of every chain of the file. -/
theorem yamlExport_returns (levels : Nat) :
    Returns (fun _ => ∀ offset, IsRoot r offset → Bounded r levels offset)
      (yamlExport core lib options r levels) := by
  refine .bind fun _ => .ite (fun _ => ?_) fun _ => .throw _
  refine .bind fun _ => .bind fun _ => .bind fun _ => ?_
  refine (yamlRoots_returns hsort lib options r levels).bind_of fun emitted hroots => ?_
  refine .bind fun ended => .bind fun closed => .bind fun _ => .ite (fun hdone => ?_) fun _ => .throw _
  exact .pure (hroots (Bool.and_eq_true_iff.mp (Bool.and_eq_true_iff.mp hdone).1).1)

end

end Hrbl
