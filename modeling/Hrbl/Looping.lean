import Hrbl.Confinement

/-!
# Exports of files that go around

How deeply the calls of an export may be nested: not more deeply than the file has bytes, if its
nodes do not go around. If they do, nothing ends an export to JSON of a sound file.
-/

namespace Hrbl

open Lib Lib.Outcome

variable {σ : Type}

/-- Where the nodes of a sound file go around, an export to JSON that nothing refuses runs out of
levels, however many there are. -/
theorem exportJsonEx_loops {r : Reader} (hexportable : Exportable r) (hsound : FileSound r)
    (hkeys : ∀ root, IsRoot r root → KeysInside r root) (hcyclic : Cyclic (Child r) (IsRoot r))
    {core : Core σ} (hserves : core.Serves) (hsort : Sorts core.sortWithCompare)
    (options : Option ExportOptions) (world : σ) (levels : Nat) :
    (exportJsonEx core levels r options world).1 = .error .overflow := by
  rcases exportJsonEx_proceeds hserves hsort hsound levels world with htrue | hfault | hoverflow
  · -- it would have been at the end of a chain that is longer than there are levels
    obtain ⟨a, below, ⟨hroot, hchain⟩, hle⟩ := hcyclic.exists_descent levels
    have hlt := (exportJsonEx_passed hsort options r world htrue a hroot).bounded below hchain
    omega
  · exact absurd hfault (exportJsonEx_inside hexportable hkeys hsort options world levels)
  · exact hoverflow

section

variable {hash64 : Bytes → UInt64} {b : Buffer} {r : Reader}
  (hverified : verifyBuffer hash64 b = .ok .ok) (hopened : openBuffer true b = .ok r)

include hverified hopened

/-- The calls of an export of a verified file are nested no more deeply than the file has bytes, in
any format, when its nodes do not go around. On a file whose nodes are sound and whose keys are in
it this is needed for an export to JSON to end at all. -/
theorem exports_depth_iff :
    (¬Cyclic (Child r) (IsRoot r) → ∀ {σ : Type} (core : Core σ), Sorts core.sortWithCompare →
      ∀ lib options world format levels, b.bytes.length < levels →
        (exportAs core lib options r world format levels).1 ≠ .error .overflow) ∧
    (FileSound r → (∀ root, IsRoot r root → KeysInside r root) → ∀ {σ : Type} (core : Core σ),
      core.Serves → Sorts core.sortWithCompare → ∀ lib options world,
        ((∃ levels, (exportAs core lib options r world .json levels).1 ≠ .error .overflow) ↔
          ¬Cyclic (Child r) (IsRoot r))) := by
  obtain ⟨hbase, hexportable⟩ := verified_exportable hverified hopened
  have hends : ¬Cyclic (Child r) (IsRoot r) → ∀ {σ : Type} (core : Core σ),
      Sorts core.sortWithCompare → ∀ lib options world format levels, b.bytes.length < levels →
        (exportAs core lib options r world format levels).1 ≠ .error .overflow := by
    intro hacyclic σ core hsort lib options world format levels hlarge
    rw [← hbase] at hlarge
    exact exportAs_ends hsort lib options r world hacyclic format hlarge
  refine ⟨hends, ?_⟩
  intro hsound hkeys σ core hserves hsort lib options world
  constructor
  · rintro ⟨levels, hends⟩ hcyclic
    exact hends (exportJsonEx_loops hexportable hsound hkeys hcyclic hserves hsort options
      world levels)
  · intro hacyclic
    exact ⟨_, hends hacyclic core hsort lib options world .json _ (Nat.lt_succ_self _)⟩

end

/-! ## An array in itself -/

section

variable {hash64 : Bytes → UInt64} {b : Buffer}
  (hbytes : b.bytes = (paired hash64 159).file hash64)

include hbytes

/-- There are the two arrays and no block. -/
theorem paired_around : FileSound ⟨b, (paired hash64 159).header hash64⟩ ∧
    ∀ root, IsRoot ⟨b, (paired hash64 159).header hash64⟩ root →
      KeysInside ⟨b, (paired hash64 159).header hash64⟩ root := by
  obtain ⟨hroots, houter, hinner, -, houterKind, hinnerKind⟩ := paired_nodes hbytes
  obtain ⟨-, -, hpool⟩ := Parts.hasAt hbytes
  rw [paired_stringsStart] at hpool
  -- the two arrays are the only nodes, each below the other
  have hreached : ∀ root node, IsRoot ⟨b, (paired hash64 159).header hash64⟩ root →
      Relation.ReflTransGen (Child ⟨b, (paired hash64 159).header hash64⟩) root node →
      node = 159 ∨ node = 183 := by
    intro root node hroot hreach
    induction hreach with
    | refl => exact .inl ((hroots root).mp hroot)
    | tail _ hlast ih =>
      rcases ih with rfl | rfl
      · exact .inr ((houter _).mp hlast)
      · exact .inl ((hinner _).mp hlast)
  constructor
  · constructor
    · intro entry hentry
      have hheld : RootsHeld b ((paired hash64 159).header hash64) (paired hash64 159).entries :=
        (paired_sound hash64 159).rootsHeld hbytes
      rw [List.mem_singleton.mp (hheld.mem rfl hentry)]
      exact KeySound.of_record hpool areSequences_letter rfl
    · intro root node hroot hreach
      rcases hreached root node hroot hreach with rfl | rfl
      · obtain ⟨-, header, start, hbody, -⟩ := ((houter 183).mpr rfl).of_array houterKind
        exact ⟨.array, houterKind, _, hbody⟩
      · obtain ⟨-, header, start, hbody, -⟩ := ((hinner 159).mpr rfl).of_array hinnerKind
        exact ⟨.array, hinnerKind, _, hbody⟩
  · rintro root hroot block entry hreach ⟨hblock, -⟩
    rcases hreached root block hroot hreach with rfl | rfl
    · cases houterKind.symm.trans hblock
    · cases hinnerKind.symm.trans hblock

end

/-- On a file that the verifier accepts and that has an array in itself, exports to JSON run out of
levels with any number of them. On one with a block and an integer no export does with more levels
than the file has bytes. -/
theorem exports_depth_iff_paired : ∃ (b b' : Buffer) (r r' : Reader),
    verifyBuffer (fun _ => 0) b = .ok .ok ∧ openBuffer true b = .ok r ∧
      verifyBuffer (fun _ => 0) b' = .ok .ok ∧ openBuffer true b' = .ok r' ∧
      (∀ lib options levels,
        (exportAs plainCore lib options r [] .json levels).1 = .error .overflow) ∧
      ∀ lib options format levels, 248 < levels →
        (exportAs plainCore lib options r' [] format levels).1 ≠ .error .overflow := by
  obtain ⟨b, hbytes⟩ : ∃ b : Buffer, b.bytes = (paired (fun _ => 0) 159).file fun _ => 0 :=
    (paired_sound (fun _ => 0) 159).exists_buffer
  obtain ⟨b', hbytes'⟩ : ∃ b' : Buffer, b'.bytes = (nested (fun _ => 0) 208).file fun _ => 0 :=
    (nested_sound (fun _ => 0) 208).exists_buffer
  have hverified := (paired_sound (fun _ => 0) 159).verified hbytes
  have hverified' := (nested_sound (fun _ => 0) 208).verified hbytes'
  obtain ⟨hsound, hkeys⟩ := paired_around hbytes
  have hlength : b'.bytes.length = 248 := by
    rw [hbytes', Parts.length_file, nested_footerStart]
  refine ⟨b, b', _, _, hverified, Parts.opened hbytes, hverified', Parts.opened hbytes', ?_, ?_⟩
  · intro lib options levels
    have hiff := (exports_depth_iff hverified (Parts.opened hbytes)).2 hsound hkeys plainCore
      plainCore_serves sorts_insertionSortWith lib options []
    by_contra hends
    exact hiff.mp ⟨levels, hends⟩ (paired_cyclic hbytes)
  · intro lib options format levels hlarge
    rw [← hlength] at hlarge
    exact (exports_depth_iff hverified' (Parts.opened hbytes')).1 (nested_acyclic hbytes') plainCore
      sorts_insertionSortWith lib options [] format levels hlarge

/-- With any hash there is a file that the verifier accepts and the reader opens, and on which no
number of levels is enough for an export to JSON. -/
theorem export_depth_unbounded : ¬∃ hash64 : Bytes → UInt64, ∀ (b : Buffer) (r : Reader),
    verifyBuffer hash64 b = .ok .ok → openBuffer true b = .ok r → ∃ levels,
      (exportJsonEx plainCore levels r none []).1 ≠ .error .overflow := by
  rintro ⟨hash64, hends⟩
  obtain ⟨b, hbytes⟩ : ∃ b : Buffer, b.bytes = (paired hash64 159).file hash64 :=
    (paired_sound hash64 159).exists_buffer
  have hverified := (paired_sound hash64 159).verified hbytes
  obtain ⟨-, hexportable⟩ := verified_exportable hverified (Parts.opened hbytes)
  obtain ⟨hsound, hkeys⟩ := paired_around hbytes
  obtain ⟨levels, hne⟩ := hends b _ hverified (Parts.opened hbytes)
  exact hne (exportJsonEx_loops hexportable hsound hkeys (paired_cyclic hbytes) plainCore_serves
    sorts_insertionSortWith none [] levels)

end Hrbl
