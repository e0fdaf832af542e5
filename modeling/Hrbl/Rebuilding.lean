import Hrbl.YamlExport

/-!
# Rebuilding a document from YAML

The core schema has one kind of integers and one NaN. A reader that takes an integer for an INT64
where it fits, and the NaN for the quiet one, gets the document back with all of its kinds and
bits where the exporter has not lost one of them before.
-/

namespace Hrbl

open Lib Lib.Outcome

/-! ## Values from data -/

/-- An integer with the first kind that holds it. -/
def rebuildInt (v : Int) : Option Value :=
  if -2 ^ 63 ≤ v ∧ v < 2 ^ 63 then some (.scalar (.int64 (Int64.ofInt v)))
  else if 0 ≤ v ∧ v < 2 ^ 64 then some (.scalar (.uint64 (UInt64.ofNat v.toNat)))
  else none

/-- The quiet NaN without a payload. -/
def quietNan : UInt64 := 0x7FF8000000000000

/-- An infinity. -/
def infinityBits (negative : Bool) : UInt64 :=
  if negative then 0xFFF0000000000000 else 0x7FF0000000000000

mutual

/-- The value that data stand for; a key is a string. -/
def rebuild : Yaml.Data UInt64 → Option Value
  | .null => some (.scalar .null)
  | .bool value => some (.scalar (.bool value))
  | .int v => rebuildInt v
  | .float bits => some (.scalar (.float64 bits))
  | .infinity negative => some (.scalar (.float64 (infinityBits negative)))
  | .nan => some (.scalar (.float64 quietNan))
  | .string value => some (.scalar (.string value))
  | .mapping pairs => (rebuildMembers pairs).map .block
  | .sequence elements => (rebuildElements elements).map .array

def rebuildMembers : List (Yaml.Data UInt64 × Yaml.Data UInt64) → Option (List (Bytes × Value))
  | [] => some []
  | (.string key, data) :: pairs => do
    let value ← rebuild data
    let members ← rebuildMembers pairs
    return (key, value) :: members
  | _ :: _ => none

def rebuildElements : List (Yaml.Data UInt64) → Option (List Value)
  | [] => some []
  | data :: elements => do
    let value ← rebuild data
    let values ← rebuildElements elements
    return value :: values

end

/-- A scalar that comes back: a finite float is dotted, a NaN is the quiet one, and a UINT64 does
not fit into an INT64. -/
def ComesBack (spell : UInt64 → Bytes) : Scalar → Prop
  | .float64 bits =>
    if isNan bits then bits = quietNan
    else isNonFinite bits = false → (spell bits).any isDotOrExp = true
  | .uint64 value => 2 ^ 63 ≤ value.toNat
  | _ => True

instance (spell : UInt64 → Bytes) : ∀ s, Decidable (ComesBack spell s)
  | .float64 bits =>
    inferInstanceAs (Decidable (if isNan bits then bits = quietNan
      else isNonFinite bits = false → (spell bits).any isDotOrExp = true))
  | .uint64 value => inferInstanceAs (Decidable (2 ^ 63 ≤ value.toNat))
  | .null => isTrue trivial
  | .bool _ => isTrue trivial
  | .int64 _ => isTrue trivial
  | .string _ => isTrue trivial

/-! ## Scalars -/

/-- An infinity has one spelling for each sign. -/
theorem infinityBits_eq {bits : UInt64} (hinf : isNonFinite bits = true)
    (hnan : ¬isNan bits = true) : infinityBits (isNegative bits) = bits := by
  have hlt := bits.toNat_lt
  have hexponent : bits.toNat / 2 ^ 52 % 2 ^ 11 = 2047 := by
    have heq := congrArg UInt64.toNat (of_decide_eq_true hinf)
    rw [UInt64.toNat_and, UInt64.toNat_shiftRight] at heq
    change (bits.toNat >>> 52) &&& (2 ^ 11 - 1) = 2047 at heq
    rwa [Nat.and_two_pow_sub_one_eq_mod, Nat.shiftRight_eq_div_pow] at heq
  have hmantissa : bits.toNat % 2 ^ 52 = 0 := by
    rw [isNan, hinf, Bool.true_and, decide_eq_true_iff, not_not] at hnan
    have heq := congrArg UInt64.toNat hnan
    rw [UInt64.toNat_and] at heq
    change bits.toNat &&& (2 ^ 52 - 1) = 0 at heq
    rwa [Nat.and_two_pow_sub_one_eq_mod] at heq
  have hsign : (bits >>> 63).toNat = bits.toNat / 2 ^ 63 := by
    rw [UInt64.toNat_shiftRight]
    change bits.toNat >>> 63 = _
    rw [Nat.shiftRight_eq_div_pow]
  rw [infinityBits, isNegative]
  apply UInt64.toNat_inj.mp
  by_cases hnegative : bits >>> 63 = 1
  · rw [hnegative] at hsign
    rw [decide_eq_true hnegative, if_pos rfl]
    change 1 = bits.toNat / 2 ^ 63 at hsign
    change 18442240474082181120 = bits.toNat
    omega
  · have hzero : bits.toNat / 2 ^ 63 = 0 := by
      by_contra hne
      refine hnegative (UInt64.toNat_inj.mp ?_)
      rw [hsign]
      change _ = 1
      omega
    rw [decide_eq_false hnegative, if_neg Bool.false_ne_true]
    change 9218868437227405312 = bits.toNat
    omega

theorem rebuildInt_int64 (value : Int64) :
    rebuildInt value.toInt = some (.scalar (.int64 value)) := by
  have hle := value.le_toInt
  have hlt := value.toInt_lt
  rw [rebuildInt, if_pos ⟨hle, hlt⟩, Int64.ofInt_toInt]

theorem rebuildInt_uint64 (value : UInt64) :
    rebuildInt value.toNat = some (.scalar (.uint64 value)) ↔ 2 ^ 63 ≤ value.toNat := by
  have hlt := value.toNat_lt
  rw [rebuildInt]
  by_cases hsmall : value.toNat < 2 ^ 63
  · rw [if_pos ⟨by omega, by omega⟩]
    refine iff_of_false ?_ (by omega)
    intro heq
    cases heq
  · rw [if_neg (by omega), if_pos ⟨by omega, by omega⟩, Int.toNat_natCast, UInt64.ofNat_toNat]
    exact iff_of_true rfl (by omega)

theorem rebuildInt_ne_float (v : Int) (bits : UInt64) :
    rebuildInt v ≠ some (.scalar (.float64 bits)) := by
  unfold rebuildInt
  split
  · intro heq
    cases heq
  split
  · intro heq
    cases heq
  · intro heq
    cases heq

/-- What is rebuilt from an integer comes back. -/
theorem comesBack_rebuildInt {spell : UInt64 → Bytes} {v : Int} {out : Value}
    (h : rebuildInt v = some out) : ∀ s ∈ valueScalars out, ComesBack spell s := by
  unfold rebuildInt at h
  split at h
  · cases h
    exact List.forall_mem_singleton.mpr trivial
  split at h
  · rename_i hlarge hfits
    cases h
    refine List.forall_mem_singleton.mpr ?_
    rw [ComesBack, UInt64.toNat_ofNat']
    omega
  · cases h

section

variable {spell : UInt64 → Bytes} {read : Bytes → UInt64}

/-- The data of a float that is not spelled with a dot are an integer. -/
theorem data_undotted (h : ReadsBack spell read) {bits : UInt64} (hfinite : isNonFinite bits = false)
    (hdot : ¬(spell bits).any isDotOrExp = true) :
    ∃ v, (scalarNode spell (.float64 bits)).data read = .int v := by
  have hnan : ¬isNan bits = true := by
    rw [isNan, hfinite, Bool.false_and]
    exact Bool.false_ne_true
  have htext : floatText spell bits = spell bits := by
    rw [floatText, if_neg hnan, if_neg (Bool.eq_false_iff.mp hfinite)]
  obtain ⟨v, hv⟩ := resolve_undotted h hfinite hdot
  exact ⟨v, (congrArg (Yaml.resolve read) htext).trans hv⟩

theorem rebuild_scalar (h : ReadsBack spell read) (s : Scalar) :
    rebuild ((scalarNode spell s).data read) = some (.scalar s) ↔ ComesBack spell s := by
  -- but for a finite float without a dot, the data of the node are those of the scalar
  have hdata : Dotted spell [s] → (scalarNode spell s).data read = scalarData s :=
    (scalarData_iff h s).mpr
  have hplain : (∀ bits, s ≠ .float64 bits) → (scalarNode spell s).data read = scalarData s :=
    fun hs => hdata (dotted_of_no_float hs)
  cases s with
  | null => exact iff_of_true rfl trivial
  | bool value =>
    rw [hplain fun _ h => by cases h]
    exact iff_of_true rfl trivial
  | int64 value =>
    rw [hplain fun _ h => by cases h]
    exact iff_of_true (rebuildInt_int64 value) trivial
  | uint64 value =>
    rw [hplain fun _ h => by cases h]
    exact rebuildInt_uint64 value
  | string value => exact iff_of_true rfl trivial
  | float64 bits =>
    by_cases hfinite : isNonFinite bits = false ∧ ¬(spell bits).any isDotOrExp = true
    · obtain ⟨hfinite, hdot⟩ := hfinite
      have hnan : ¬isNan bits = true := by
        rw [isNan, hfinite, Bool.false_and]
        exact Bool.false_ne_true
      obtain ⟨v, hv⟩ := data_undotted h hfinite hdot
      rw [hv, ComesBack, if_neg hnan]
      exact iff_of_false (rebuildInt_ne_float v bits) fun hback => hdot (hback hfinite)
    · have hdotted : isNonFinite bits = false → (spell bits).any isDotOrExp = true := by
        intro hzero
        by_contra hdot
        exact hfinite ⟨hzero, hdot⟩
      rw [hdata, scalarData, ComesBack]
      · by_cases hnan : isNan bits = true
        · rw [if_pos hnan, if_pos hnan]
          constructor
          · intro heq
            cases heq
            rfl
          · rintro rfl
            rfl
        rw [if_neg hnan, if_neg hnan]
        refine iff_of_true ?_ hdotted
        by_cases hinf : isNonFinite bits = true
        · rw [if_pos hinf, rebuild, infinityBits_eq hinf hnan]
        · rw [if_neg hinf, rebuild]
      · intro bits' hmem hzero
        obtain rfl : bits' = bits := Scalar.float64.inj (List.mem_singleton.mp hmem)
        exact hdotted hzero

/-- Whatever is rebuilt from the node of a scalar comes back. -/
theorem comesBack_rebuild_scalar (h : ReadsBack spell read) {s : Scalar} {out : Value}
    (hout : rebuild ((scalarNode spell s).data read) = some out) :
    ∀ t ∈ valueScalars out, ComesBack spell t := by
  by_cases hback : ComesBack spell s
  · rw [(rebuild_scalar h s).mpr hback] at hout
    cases hout
    exact List.forall_mem_singleton.mpr hback
  cases s with
  | null => exact absurd trivial hback
  | bool value => exact absurd trivial hback
  | int64 value => exact absurd trivial hback
  | string value => exact absurd trivial hback
  | uint64 value =>
    rw [(scalarData_iff h _).mpr (dotted_of_no_float fun _ h => by cases h)] at hout
    exact comesBack_rebuildInt hout
  | float64 bits =>
    rw [ComesBack] at hback
    by_cases hnan : isNan bits = true
    · have hdata : (scalarNode spell (.float64 bits)).data read = .nan := by
        have htext : floatText spell bits = ascii ['.', 'n', 'a', 'n'] := if_pos hnan
        exact congrArg (Yaml.resolve read) htext
      have hquiet : ComesBack spell (.float64 quietNan) := by
        rw [ComesBack, if_pos (by decide)]
      rw [hdata, rebuild] at hout
      cases hout
      exact List.forall_mem_singleton.mpr hquiet
    · rw [if_neg hnan, Classical.not_imp] at hback
      obtain ⟨v, hv⟩ := data_undotted h hback.1 hback.2
      rw [hv] at hout
      exact comesBack_rebuildInt hout

/-! ## Values -/

mutual

/-- A value comes back from its node when its scalars do, and only then. -/
theorem rebuild_value (h : ReadsBack spell read) : ∀ value : Value,
    rebuild ((valueNode spell value).data read) = some value ↔
      ∀ s ∈ valueScalars value, ComesBack spell s
  | .scalar s => by
    rw [valueScalars, List.forall_mem_singleton]
    exact rebuild_scalar h s
  | .block members => by
    have hmembers := rebuild_members h members
    rw [valueNode, Yaml.Node.data, rebuild, valueScalars, ← hmembers, Option.map_eq_some_iff]
    simp only [Value.block.injEq, exists_eq_right]
  | .array elements => by
    have helements := rebuild_elements h elements
    rw [valueNode, Yaml.Node.data, rebuild, valueScalars, ← helements, Option.map_eq_some_iff]
    simp only [Value.array.injEq, exists_eq_right]

theorem rebuild_members (h : ReadsBack spell read) : ∀ members : List (Bytes × Value),
    rebuildMembers (Yaml.pairsData read (membersNode spell members)) = some members ↔
      ∀ s ∈ membersScalars members, ComesBack spell s
  | [] => iff_of_true rfl fun _ hmem => absurd hmem List.not_mem_nil
  | (key, value) :: members => by
    have hkey : (Yaml.Node.scalar (quotedScalar key)).data read = .string key := rfl
    rw [membersNode, Yaml.pairsData, membersScalars, List.forall_mem_append, ← rebuild_value h value,
      ← rebuild_members h members, hkey, rebuildMembers]
    simp [Option.bind_eq_some_iff]

theorem rebuild_elements (h : ReadsBack spell read) : ∀ elements : List Value,
    rebuildElements (Yaml.elementsData read (elementsNode spell elements)) = some elements ↔
      ∀ s ∈ elementsScalars elements, ComesBack spell s
  | [] => iff_of_true rfl fun _ hmem => absurd hmem List.not_mem_nil
  | value :: elements => by
    rw [elementsNode, Yaml.elementsData, elementsScalars, List.forall_mem_append,
      ← rebuild_value h value, ← rebuild_elements h elements, rebuildElements]
    simp [Option.bind_eq_some_iff]

end

mutual

/-- Whatever is rebuilt from the node of a value comes back. -/
theorem comesBack_rebuild (h : ReadsBack spell read) : ∀ {value out : Value},
    rebuild ((valueNode spell value).data read) = some out →
      ∀ s ∈ valueScalars out, ComesBack spell s
  | .scalar _, _, hout => comesBack_rebuild_scalar h hout
  | .block members, _, hout => by
    rw [valueNode, Yaml.Node.data, rebuild, Option.map_eq_some_iff] at hout
    obtain ⟨rebuilt, hrebuilt, rfl⟩ := hout
    exact comesBack_rebuildMembers h hrebuilt
  | .array elements, _, hout => by
    rw [valueNode, Yaml.Node.data, rebuild, Option.map_eq_some_iff] at hout
    obtain ⟨rebuilt, hrebuilt, rfl⟩ := hout
    exact comesBack_rebuildElements h hrebuilt

theorem comesBack_rebuildMembers (h : ReadsBack spell read) :
    ∀ {members out : List (Bytes × Value)},
      rebuildMembers (Yaml.pairsData read (membersNode spell members)) = some out →
        ∀ s ∈ membersScalars out, ComesBack spell s
  | [], _, hout => by
    cases hout
    exact fun _ hmem => absurd hmem List.not_mem_nil
  | (key, value) :: members, _, hout => by
    have hkey : (Yaml.Node.scalar (quotedScalar key)).data read = .string key := rfl
    rw [membersNode, Yaml.pairsData, hkey, rebuildMembers] at hout
    obtain ⟨first, hfirst, hout⟩ := Option.bind_eq_some_iff.mp hout
    obtain ⟨rest, hrest, hout⟩ := Option.bind_eq_some_iff.mp hout
    cases hout
    rw [membersScalars, List.forall_mem_append]
    exact ⟨comesBack_rebuild h hfirst, comesBack_rebuildMembers h hrest⟩

theorem comesBack_rebuildElements (h : ReadsBack spell read) : ∀ {elements out : List Value},
    rebuildElements (Yaml.elementsData read (elementsNode spell elements)) = some out →
      ∀ s ∈ elementsScalars out, ComesBack spell s
  | [], _, hout => by
    cases hout
    exact fun _ hmem => absurd hmem List.not_mem_nil
  | value :: elements, _, hout => by
    rw [elementsNode, Yaml.elementsData, rebuildElements] at hout
    obtain ⟨first, hfirst, hout⟩ := Option.bind_eq_some_iff.mp hout
    obtain ⟨rest, hrest, hout⟩ := Option.bind_eq_some_iff.mp hout
    cases hout
    rw [elementsScalars, List.forall_mem_append]
    exact ⟨comesBack_rebuild h hfirst, comesBack_rebuildElements h hrest⟩

end

end

/-! ## Files -/

variable {σ : Type}

/-- The export returns `true`, and the document, with the members of the root and of every block in
some order, is rebuilt from the node that the stream is composed to. -/
def YamlRebuilds (core : Core σ) (lib : LibYaml σ) (events : σ → List Yaml.Event)
    (read : Bytes → UInt64) (levels : Nat) (r : Reader) (how : Option ExportOptions) (world : σ)
    (document : Document) : Prop :=
  ∃ world' stream node document', exportYamlEx core lib levels r how world = (.ok true, world') ∧
    events world' = events world ++ stream ∧ RearrangedDocument List.Perm document document' ∧
    Yaml.compose stream = some node ∧ rebuild (node.data read) = some (.block document')

/-- On a file of a document, the document is rebuilt when its scalars come back, and only then. -/
theorem yamlRebuilds_iff {core : Core σ} {lib : LibYaml σ} {events : σ → List Yaml.Event}
    {spell : UInt64 → Bytes} {read : Bytes → UInt64} (hcore : core.Prints events spell read)
    (hlib : lib.Records events) {hash64 : Bytes → UInt64} {document : Document} {b : Buffer}
    (hbytes : b.bytes = documentFile hash64 document)
    (hsize : documentSize hash64 document < 2 ^ 32)
    (hshort : ∀ u ∈ membersTexts document, Short u) (how : Option ExportOptions) {levels : Nat}
    (hlevels : membersDepth document ≤ levels) (world : σ) :
    YamlRebuilds core lib events read levels
        { base := b, header := documentHeader hash64 document } how world document ↔
      ∀ s ∈ membersScalars document, ComesBack spell s := by
  obtain ⟨world', stream, document', hend, hevents, hperm, hcompose⟩ :=
    exportYamlEx_document hcore hlib hbytes hsize hshort how hlevels world
  constructor
  · rintro ⟨world₁, stream₁, node, out, hend₁, hevents₁, hout, hcompose₁, hrebuild⟩
    -- there is one stream, and it is that of the document
    cases hend.symm.trans hend₁
    obtain rfl := List.append_cancel_left (hevents.symm.trans hevents₁)
    cases hcompose.symm.trans hcompose₁
    have hback := comesBack_rebuild hcore.readsBack hrebuild
    exact fun s hs => hback s (hout.mem_scalars.mpr hs)
  · intro hback
    refine ⟨world', stream, _, document', hend, hevents, hperm, hcompose, ?_⟩
    refine (rebuild_value hcore.readsBack (.block document')).mpr ?_
    exact fun s hs => hback s (hperm.mem_scalars.mp hs)

/-- The YAML export of a file that a writer returns preserves the document, with one kind of
integers and one NaN, when every finite float of it is printed with a dot or an exponent, and
only then. It is rebuilt with all of its kinds and bits when moreover every UINT64 is too large
for an INT64 and every NaN is the quiet one, and only then. -/
theorem yaml_export_preserves_iff {core : Core σ} {lib : LibYaml σ}
    {events : σ → List Yaml.Event} {spell : UInt64 → Bytes} {read : Bytes → UInt64}
    (hcore : core.Prints events spell read) (hlib : lib.Records events) {env : Env}
    {options : Option WriterOptions} {ops : List Op} {w : Writer}
    (hrun : (Writer.create options).runs env ops = some w) (hclosed : w.currentScope = none)
    (how : Option ExportOptions) :
    ∃ document : Document, Builder.empty.run ops = some ⟨document, []⟩ ∧
      (documentSize env.hash64 document < 2 ^ 32 → (∀ u ∈ membersTexts document, Short u) →
        w.Finalizes env document fun b => ∃ r enough, openBuffer true b = .ok r ∧
          ∀ levels ≥ enough, ∀ world,
            (YamlPreserves core lib events spell read levels r how world document ↔
              ∀ bits, .float64 bits ∈ membersScalars document → isNonFinite bits = false →
                (spell bits).any isDotOrExp = true) ∧
            (YamlRebuilds core lib events read levels r how world document ↔
              ∀ s ∈ membersScalars document, ComesBack spell s)) := by
  obtain ⟨document, hb, hwritten⟩ := runs_written hrun hclosed
  refine ⟨document, hb, fun hsize hshort => ?_⟩
  refine (hwritten hsize).mono fun b hbytes =>
    ⟨_, membersDepth document, openBuffer_document hbytes, ?_⟩
  intro levels hlevels world
  constructor
  · exact yamlPreserves_iff hcore hlib hbytes hsize hshort how hlevels world
  · exact yamlRebuilds_iff hcore hlib hbytes hsize hshort how hlevels world

/-- A float with a dot and a NaN, and an array with a string and integers of both kinds. -/
theorem yaml_export_preserves_iff_kinds :
    ∃ w b v r enough, (Writer.create none).runs (.succeeding fun key => UInt64.ofNat key.length)
        [.setFloat64 (.data [0x66]) 0x3FF8000000000000, .setFloat64 (.data [0x6E]) quietNan,
          .beginArray (.data [0x61]), .appendString [0x78], .appendInt64 (-3),
          .appendUint64 0x8000000000000000, .endArray] = some w ∧
      finalizeToBuffer (.succeeding fun key => UInt64.ofNat key.length) w = .returned b.bytes v ∧
      openBuffer true b = .ok r ∧
      ∀ levels ≥ enough, ∀ world,
        YamlPreserves eventCore eventYaml id spellPlain readPlain levels r none world
          [([0x66], .scalar (.float64 0x3FF8000000000000)), ([0x6E], .scalar (.float64 quietNan)),
            ([0x61], .array [.scalar (.string [0x78]), .scalar (.int64 (-3)),
              .scalar (.uint64 0x8000000000000000)])] ∧
        YamlRebuilds eventCore eventYaml id readPlain levels r none world
          [([0x66], .scalar (.float64 0x3FF8000000000000)), ([0x6E], .scalar (.float64 quietNan)),
            ([0x61], .array [.scalar (.string [0x78]), .scalar (.int64 (-3)),
              .scalar (.uint64 0x8000000000000000)])] := by
  obtain ⟨w, hrun, hclosed, hworkers⟩ : ∃ w, (Writer.create none).runs
      (.succeeding fun key => UInt64.ofNat key.length)
      [.setFloat64 (.data [0x66]) 0x3FF8000000000000, .setFloat64 (.data [0x6E]) quietNan,
        .beginArray (.data [0x61]), .appendString [0x78], .appendInt64 (-3),
        .appendUint64 0x8000000000000000, .endArray] = some w ∧
      w.currentScope = none ∧ WorkersFit w.options.workerCount := ⟨_, rfl, rfl, by decide⟩
  obtain ⟨document, hb, hfile⟩ := yaml_export_preserves_iff eventCore_prints eventYaml_records
    hrun hclosed none
  cases hb
  have hshort : ∀ u ∈ membersTexts [([0x66], .scalar (.float64 0x3FF8000000000000)),
      ([0x6E], .scalar (.float64 quietNan)), ([0x61], .array [.scalar (.string [0x78]),
        .scalar (.int64 (-3)), .scalar (.uint64 0x8000000000000000)])], Short u := by
    decide
  obtain ⟨b, v, hreturned, r, enough, hopen, hexport⟩ :=
    (hfile (by decide +kernel) hshort).returned (Env.succeeding_succeeds _) hworkers
  refine ⟨w, b, v, r, enough, hrun, hreturned, hopen, fun levels hlevels world => ?_⟩
  obtain ⟨hpreserves, hrebuilds⟩ := hexport levels hlevels world
  have hback : ∀ s ∈ [Scalar.float64 0x3FF8000000000000, .float64 quietNan, .string [0x78],
      .int64 (-3), .uint64 0x8000000000000000], ComesBack spellPlain s := by decide
  constructor
  · refine hpreserves.mpr fun bits hmem hfinite => ?_
    have hcomes := hback _ hmem
    have hnan : ¬isNan bits = true := by
      rw [isNan, hfinite, Bool.false_and]
      exact Bool.false_ne_true
    rw [ComesBack, if_neg hnan] at hcomes
    exact hcomes hfinite
  · exact hrebuilds.mpr hback

end Hrbl
