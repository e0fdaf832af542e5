import Hrbl.Levels
import Hrbl.Proceeding
import Hrbl.Straying

/-!
# Exports of verified files

What an export takes from a file that the verifier accepts is in the file, but for the keys of
blocks: the verifier reads the entries of the root index and no others.
-/

namespace Hrbl

open Lib Lib.Outcome

/-! ## Files for exporters -/

/-- What an exporter may rely on in a file: a layout that is accepted, nodes that end inside, and a
root index that is inside and has its keys there. -/
structure Exportable (r : Reader) : Prop where
  layout : r.header.LayoutAccepted r.size
  confined : r.header.Confined r.size
  index : r.header.rootIndexOffset.toNat + r.header.rootCount.toNat * 24 ≤ r.base.bytes.length
  key : ∀ entry, RootEntry r entry → KeyInside r entry

/-- A root index that is listed in front of strings that do not start behind the footer. -/
theorem RootsListed.exportable {r : Reader} {entries : List Entry}
    (hroots : RootsListed r.base r.header entries) (henvelope : Enveloped r.base r.header)
    (hpool : r.header.stringsOffset ≤ r.header.footerOffset) : Exportable r := by
  have hlayout := henvelope.layout
  have hsize := henvelope.size_le
  have hlength := r.base.length_lt
  have hstart : r.header.rootIndexOffset.toNat = 128 := congrArg UInt64.toNat hlayout.rootIndexOffset
  have hfooter := hlayout.footer_toNat hsize
  have hstrings := UInt64.le_iff_toNat_le.mp hpool
  -- the root index that is held does not run out of the file
  have hcount : 128 + r.header.rootCount.toNat * 24 ≤ r.base.bytes.length := by
    rcases Nat.eq_zero_or_pos entries.length with hnone | hsome
    · rw [← hroots.count_eq, hnone]
      omega
    · have hindex := length_flatMap_encode entries
      have hle := hroots.held.le_length fun hnil => by
        rw [hnil, List.length_nil] at hindex
        omega
      rw [← hroots.count_eq]
      omega
  constructor
  · exact hlayout
  · refine ⟨.inl ?_, by omega⟩
    rw [UInt64.le_iff_toNat_le]
    change _ ≤ r.base.size.toNat
    rw [Buffer.toNat_size]
    omega
  · omega
  · intro entry hentry
    have hkey := (hroots.inSections entry (hroots.mem hlayout.rootIndexOffset hentry)).key_le
    have hplace := entry.keyPoolOffset.toNat_lt
    have hkeyLength := entry.keyLength.toNat_lt
    have hfour : (4 : UInt64).toNat = 4 := rfl
    rw [← hlayout.footerOffset, UInt64.le_iff_toNat_le, UInt64.toNat_add, UInt64.toNat_add,
      UInt32.toNat_toUInt64, UInt32.toNat_toUInt64, hfour] at hkey
    refine .inr ?_
    omega

/-- The verifier makes sure of all this. -/
theorem verified_exportable {hash64 : Bytes → UInt64} {b : Buffer} {r : Reader}
    (hverified : verifyBuffer hash64 b = .ok .ok) (hopened : openBuffer true b = .ok r) :
    r.base = b ∧ Exportable r := by
  obtain ⟨rfl, henvelope, -, hpool, entries, hroots⟩ := verified_opened hverified hopened
  exact ⟨rfl, hroots.listed.exportable henvelope
    (pool_le_footer henvelope.size_le henvelope.layout hpool)⟩

/-! ## Exports -/

variable {σ : Type}

/-- A key in a file that is short is short itself. -/
theorem KeyInside.short {r : Reader} {entry : Entry} (h : KeyInside r entry)
    (hshort : r.base.bytes.length < 2 ^ 31) : ShortKey r entry := by
  refine ⟨h, ?_⟩
  rcases h with hzero | hle
  · rw [hzero]
    decide
  · omega

/-- A read leaves the file at a root whose key is not good, or at a bad node that is reached. -/
theorem not_rootHalts {r : Reader} {good : Entry → Prop} {bad : UInt64 → Prop}
    (hgood : ∀ entry, RootEntry r entry → good entry)
    (hnobad : ∀ root node, IsRoot r root → Relation.ReflTransGen (Child r) root node → ¬bad node)
    (levels : Nat) : ¬RootHalts r good bad .fault levels := by
  rintro ⟨entry, hentry, ⟨-, hbad⟩ | hhalts⟩
  · exact hbad (hgood entry hentry)
  · obtain ⟨node, hreach, hbad⟩ := hhalts.reaches
    exact hnobad _ node ⟨entry, hentry, rfl⟩ hreach hbad

theorem KeysInside.not_badKey {r : Reader} (hkeys : ∀ root, IsRoot r root → KeysInside r root)
    (root node : UInt64) (hroot : IsRoot r root)
    (hreach : Relation.ReflTransGen (Child r) root node) : ¬BadKey r node := by
  rintro ⟨entry, hentry, hout⟩
  exact hout (hkeys root hroot node entry hreach hentry)

section

variable {r : Reader} (hexportable : Exportable r)
  (hkeys : ∀ root, IsRoot r root → KeysInside r root) {core : Core σ}
  (hsort : Sorts core.sortWithCompare) (options : Option ExportOptions) (world : σ)

include hexportable hkeys hsort

/-- An export of such a file leaves it only where the key of an entry does, in a block that is
reached. -/
theorem exportJsonEx_inside (levels : Nat) :
    (exportJsonEx core levels r options world).1 ≠ .error .fault := by
  obtain ⟨hlayout, hconfined, hindex, hroots⟩ := hexportable
  intro hfault
  obtain ⟨-, s, hrun⟩ := exportEnd_eq_error hfault
  exact not_rootHalts hroots (KeysInside.not_badKey hkeys) levels
    (((exportRoots_halts (by decide) hsort (fun _ => ⟨hlayout, hconfined⟩) (fun _ => hindex)
      (fun _ hbad => hbad) levels) _ trivial).2 _ _ hrun rfl)

/-- For YAML the file has to be short, since a length is taken as an `int`. -/
theorem exportAs_inside (lib : LibYaml σ) (format : ExportFormat)
    (hyaml : format = .yaml → core.Fits ∧ r.base.bytes.length < 2 ^ 31) (levels : Nat) :
    (exportAs core lib options r world format levels).1 ≠ .error .fault := by
  -- in each format a fault is a halt at a root or a key, and there is none
  cases format with
  | json => exact exportJsonEx_inside hexportable hkeys hsort options world levels
  | ini =>
    obtain ⟨hlayout, hconfined, hindex, hroots⟩ := hexportable
    intro hfault
    obtain ⟨-, s, hrun⟩ := exportEnd_eq_error hfault
    exact not_rootHalts hroots (KeysInside.not_badKey hkeys) levels
      (((iniRoots_halts (by decide) hsort (fun _ => ⟨hlayout, hconfined⟩) (fun _ => hindex)
        (fun _ hbad => hbad) levels) _ trivial).2 _ _ hrun rfl)
  | yaml =>
    obtain ⟨hlayout, hconfined, hindex, hroots⟩ := hexportable
    obtain ⟨hfits, hshort⟩ := hyaml rfl
    intro hfault
    obtain ⟨-, s, hrun⟩ := exportEnd_eq_error hfault
    refine not_rootHalts (fun entry hentry => (hroots entry hentry).short hshort) ?_ levels
      (((yamlExport_halts (by decide) hsort (fun _ => hfits) (fun _ => ⟨hlayout, hconfined⟩)
        (fun _ => hindex) (fun _ hbad => hbad) levels) _ trivial).2 _ _ hrun rfl)
    rintro root node hroot hreach (⟨entry, hentry, hout⟩ | ⟨range, hrange, hlong⟩)
    · exact hout ((hkeys root hroot node entry hreach hentry).short hshort)
    · have hle := scalarStringAt_inside hrange
      rw [Buffer.from, List.length_drop] at hle
      omega

end

/-- An export of a verified file whose nested keys are in the file reads nothing outside of it. For
YAML the file has to be short, since a length is taken as an `int`. -/
theorem exports_inside {hash64 : Bytes → UInt64} {b : Buffer} {r : Reader}
    (hverified : verifyBuffer hash64 b = .ok .ok) (hopened : openBuffer true b = .ok r)
    (hkeys : ∀ root block entry, IsRoot r root → Relation.ReflTransGen (Child r) root block →
      EntryOf r block entry → KeyInside r entry)
    {core : Core σ} (hsort : Sorts core.sortWithCompare) (lib : LibYaml σ)
    (options : Option ExportOptions) (world : σ) (format : ExportFormat)
    (hyaml : format = .yaml → core.Fits ∧ b.bytes.length < 2 ^ 31) (levels : Nat) :
    (exportAs core lib options r world format levels).1 ≠ .error .fault := by
  obtain ⟨rfl, hexportable⟩ := verified_exportable hverified hopened
  refine exportAs_inside hexportable ?_ hsort options world lib format hyaml levels
  intro root hroot block entry hreach hentry
  exact hkeys root block entry hroot hreach hentry

/-- An export of a verified file reads nothing outside of it, in any format and with any options,
when the keys of all entries that are reached are in it. On a file whose nodes are sound and do not
go around this is needed as well: an export to JSON that nothing refuses leaves the file where one of
the keys does. -/
theorem exports_inside_iff {hash64 : Bytes → UInt64} {b : Buffer} {r : Reader}
    (hverified : verifyBuffer hash64 b = .ok .ok) (hopened : openBuffer true b = .ok r) :
    ((∀ root, IsRoot r root → KeysInside r root) → ∀ {σ : Type} (core : Core σ),
      Sorts core.sortWithCompare → ∀ lib options world format levels,
        (format = .yaml → core.Fits ∧ b.bytes.length < 2 ^ 31) →
          (exportAs core lib options r world format levels).1 ≠ .error .fault) ∧
    (FileSound r → ¬Cyclic (Child r) (IsRoot r) → ∀ {σ : Type} (core : Core σ), core.Serves →
      Sorts core.sortWithCompare → ∀ lib options world levels, b.bytes.length < levels →
        ((exportAs core lib options r world .json levels).1 ≠ .error .fault ↔
          ∀ root, IsRoot r root → KeysInside r root)) := by
  obtain ⟨rfl, hexportable⟩ := verified_exportable hverified hopened
  constructor
  · intro hkeys σ core hsort lib options world format levels hyaml
    exact exportAs_inside hexportable hkeys hsort options world lib format hyaml levels
  · intro hsound hacyclic σ core hserves hsort lib options world levels hlarge
    constructor
    · intro hnofault root hroot
      -- it has levels enough, so it returns `true` and has read all keys
      have hends := exportAs_ends hsort lib options r world hacyclic .json hlarge
      rcases exportJsonEx_proceeds hserves hsort hsound levels world with htrue | hfault | hoverflow
      · exact (exportJsonEx_passed hsort options r world htrue root hroot).keys
      · exact absurd hfault hnofault
      · exact absurd hoverflow hends
    · intro hkeys
      exact exportJsonEx_inside hexportable hkeys hsort options world levels

/-! ## A nested key -/

/-- A block of one entry, at an offset behind which its header is aligned. -/
def loneBlock (entry : Entry) : Bytes := [Kind.block.byte] ++ (le32 1 ++ le32 24) ++ entry.encode

theorem length_loneBlock (entry : Entry) : (loneBlock entry).length = 33 := by
  simp [loneBlock, le32, Entry.length_encode]

theorem blockBodyOffsets_loneBlock {r : Reader} {offset : UInt64} {entry : Entry}
    (h : HasAt r.base.bytes offset.toNat (loneBlock entry))
    (haligned : alignUp (offset + 1) 8 = offset + 1) :
    blockBodyOffsets r offset = .ok ({ childCount := 1, entriesSizeBytes := 24 }, offset + 9) ∧
      HasAt r.base.bytes (offset + 9).toNat entry.encode := by
  have hlt := r.base.length_lt
  have hle := h.le_length (by simp [loneBlock])
  rw [length_loneBlock] at hle
  obtain ⟨hheaders, hentry⟩ := hasAt_append.mp h
  obtain ⟨hkind, hheader⟩ := hasAt_append.mp hheaders
  have hone : (1 : UInt64).toNat = 1 := rfl
  have height : (8 : UInt64).toNat = 8 := rfl
  have hnine : offset + 1 + 8 = offset + 9 := by rw [UInt64.add_assoc]; rfl
  have hbody : (offset + 1).toNat = offset.toNat + 1 := by
    rw [UInt64.toNat_add, hone]
    omega
  have hstart : (offset + 9).toNat = offset.toNat + 9 := by
    rw [← hnine, UInt64.toNat_add, hbody, height]
    omega
  have hbyte := loadByte_eq_ok.mpr hkind
  have hload : loadBlockHeader r.base (offset + 1) = .ok ⟨1, 24⟩ :=
    loadBlockHeader_of_hasAt (by rw [hbody]; exact hheader)
  constructor
  · rw [blockBodyOffsets, if_neg, hbyte, ok_bind, if_neg (not_not.mpr rfl), haligned]
    · simp only
      rw [hnine, if_neg, hload, ok_bind]
      · simp only
        rw [if_neg]
        rw [gt_iff_lt, UInt64.lt_iff_toNat_lt, UInt64.toNat_add, hstart, Buffer.toNat_size]
        change ¬r.base.bytes.length < (offset.toNat + 9 + 24) % 2 ^ 64
        omega
      · rw [gt_iff_lt, UInt64.lt_iff_toNat_lt, hstart, Buffer.toNat_size]
        omega
    · rw [ge_iff_le, UInt64.le_iff_toNat_le, Buffer.toNat_size]
      omega
  · rw [hstart]
    exact hentry

/-- The nodes of the integer 5 and of a block that has it, under a key at an offset. -/
def nestedNodes (keyOffset : UInt32) : Bytes :=
  [Kind.int64.byte] ++ (List.replicate 7 0 ++ le64 5 ++ List.replicate 7 0) ++
    loneBlock ⟨0, keyOffset, 1, 152⟩

theorem length_nestedNodes (keyOffset : UInt32) : (nestedNodes keyOffset).length = 56 := by
  simp [nestedNodes, le64, length_loneBlock]

section

variable (hash64 : Bytes → UInt64) (keyOffset : UInt32)

/-- The file with the root `a`, a block with an integer. -/
def nested : Parts where
  entries := [⟨hash64 [0x61], 208, 1, 175⟩]
  nodes := nestedNodes keyOffset
  strings := [[0x61]]

theorem nested_stringsStart : (nested hash64 keyOffset).stringsStart = 208 :=
  congrArg (152 + ·) (length_nestedNodes keyOffset)

theorem nested_footerStart : (nested hash64 keyOffset).footerStart = 216 := by
  rw [Parts.footerStart, nested_stringsStart]
  exact congrArg (208 + ·) (by decide : (poolBytes [[0x61]]).length = 8)

theorem nested_sound : (nested hash64 keyOffset).Sound where
  size_lt := by
    rw [nested_footerStart]
    decide
  sorted := List.pairwise_singleton _ _
  value := by
    intro entry hentry
    rw [List.mem_singleton.mp hentry, nested_stringsStart]
    exact (by decide : 152 ≤ 175 ∧ 175 < 208)
  key := by
    intro entry hentry
    rw [List.mem_singleton.mp hentry, nested_stringsStart, nested_footerStart]
    exact (by decide : 208 ≤ 208 ∧ 208 + 4 + 1 ≤ 216)
  utf8 := by
    intro s hs
    rw [List.mem_singleton.mp hs]
    exact isUtf8_of_ascii (by simp)
  length_le := by
    intro s hs
    rw [List.mem_singleton.mp hs]
    decide +kernel

variable {hash64} {keyOffset} {b : Buffer}
  (hbytes : b.bytes = (nested hash64 keyOffset).file hash64)

include hbytes

/-- The block is the only root, and has only the integer below it. -/
theorem nested_nodes :
    let r : Reader := ⟨b, (nested hash64 keyOffset).header hash64⟩
    (∀ root, IsRoot r root ↔ root = 175) ∧ kindAt r 152 = .ok .int64 ∧
      kindAt r 175 = .ok .block ∧ blockBodyOffsets r 175 = .ok (⟨1, 24⟩, 175 + 9) ∧
      HasAt b.bytes (175 + 9 : UInt64).toNat (Entry.encode ⟨0, keyOffset, 1, 152⟩) := by
  intro r
  obtain ⟨hroots, hnodes, -⟩ := Parts.hasAt hbytes
  have hnodes' : HasAt b.bytes 152 (nestedNodes keyOffset) := hnodes
  obtain ⟨hbefore, hblock⟩ := hasAt_append.mp hnodes'
  obtain ⟨hvalue, -⟩ := hasAt_append.mp hbefore
  have hinside : ∀ offset : UInt64, 152 ≤ offset → offset < 208 → InNodes r offset := by
    intro offset hge hlt
    refine ⟨hge, lt_of_lt_of_eq hlt ?_⟩
    change 208 = 152 + UInt64.ofNat (nestedNodes keyOffset).length
    rw [length_nestedNodes]
    rfl
  have hbyte : HasAt b.bytes 175 [Kind.block.byte] :=
    (hasAt_append.mp (hasAt_append.mp hblock).1).1
  obtain ⟨hbody, hentry⟩ : blockBodyOffsets r 175 = .ok (⟨1, 24⟩, 175 + 9) ∧
      HasAt b.bytes (175 + 9 : UInt64).toNat (Entry.encode ⟨0, keyOffset, 1, 152⟩) :=
    blockBodyOffsets_loneBlock hblock (by decide)
  refine ⟨?_, ?_, ?_, hbody, hentry⟩
  · intro root
    constructor
    · rintro ⟨entry, hroot, rfl⟩
      have hheld : RootsHeld r.base r.header (nested hash64 keyOffset).entries :=
        (nested_sound hash64 keyOffset).rootsHeld hbytes
      rw [List.mem_singleton.mp (hheld.mem rfl hroot)]
    · rintro rfl
      rw [nested, List.flatMap_cons, List.flatMap_nil, List.append_nil] at hroots
      exact ⟨_, ⟨0, Nat.one_pos, hroots⟩, rfl⟩
  · exact kindAt_eq_ok.mpr ⟨hinside 152 (by decide) (by decide), _, loadByte_eq_ok.mpr hvalue, rfl⟩
  · exact kindAt_eq_ok.mpr ⟨hinside 175 (by decide) (by decide), _, loadByte_eq_ok.mpr hbyte, rfl⟩

/-- The entry of the block is the only one that is reached. -/
theorem nested_entries {root block : UInt64} {entry : Entry}
    (hroot : IsRoot ⟨b, (nested hash64 keyOffset).header hash64⟩ root)
    (hreach : Relation.ReflTransGen (Child ⟨b, (nested hash64 keyOffset).header hash64⟩) root block)
    (hentry : EntryOf ⟨b, (nested hash64 keyOffset).header hash64⟩ block entry) :
    entry = ⟨0, keyOffset, 1, 152⟩ := by
  obtain ⟨hroots, hvalue, hblock, hbody, hheld⟩ := nested_nodes hbytes
  have honly : ∀ {entry}, EntryOf ⟨b, (nested hash64 keyOffset).header hash64⟩ 175 entry →
      entry = ⟨0, keyOffset, 1, 152⟩ := by
    rintro entry ⟨-, header, start, hbody', i, hi, hat⟩
    rw [hbody] at hbody'
    cases hbody'
    obtain rfl : i = 0 := Nat.lt_one_iff.mp hi
    rw [Nat.zero_mul, Nat.add_zero] at hat
    have heq := (loadEntry_eq_ok.mpr hat).symm.trans (loadEntry_eq_ok.mpr hheld)
    cases heq
    rfl
  obtain rfl := (hroots root).mp hroot
  rcases Relation.ReflTransGen.cases_head hreach with rfl | ⟨c, hchild, hrest⟩
  · exact honly hentry
  · obtain ⟨first, hfirst, rfl⟩ := hchild.of_block hblock
    rw [honly hfirst] at hrest
    -- an integer has nothing below it and is no block
    rcases Relation.ReflTransGen.cases_head hrest with rfl | ⟨c, hchild, -⟩
    · cases hentry.1.symm.trans hvalue
    · rcases hchild.container with hkind | hkind
      · cases hkind.symm.trans hvalue
      · cases hkind.symm.trans hvalue

/-- What is reached is the block or the integer, and only the block has something below it. -/
theorem nested_reached {root a : UInt64}
    (hroot : IsRoot ⟨b, (nested hash64 keyOffset).header hash64⟩ root)
    (hreach : Relation.ReflTransGen (Child ⟨b, (nested hash64 keyOffset).header hash64⟩) root a) :
    (a = 175 ∨ a = 152) ∧
      ∀ c, Child ⟨b, (nested hash64 keyOffset).header hash64⟩ a c → a = 175 ∧ c = 152 := by
  obtain ⟨hroots, hvalue, hblock, -, -⟩ := nested_nodes hbytes
  have hbelow : ∀ {a c},
      Relation.ReflTransGen (Child ⟨b, (nested hash64 keyOffset).header hash64⟩) root a →
      (a = 175 ∨ a = 152) → Child ⟨b, (nested hash64 keyOffset).header hash64⟩ a c →
      a = 175 ∧ c = 152 := by
    rintro a c hreach (rfl | rfl) hchild
    · obtain ⟨entry, hentry, rfl⟩ := hchild.of_block hblock
      rw [nested_entries hbytes hroot hreach hentry]
      exact ⟨rfl, rfl⟩
    · rcases hchild.container with hkind | hkind
      · cases hkind.symm.trans hvalue
      · cases hkind.symm.trans hvalue
  have hplace : a = 175 ∨ a = 152 := by
    induction hreach with
    | refl => exact .inl ((hroots _).mp hroot)
    | tail hbefore hlast ih => exact .inr (hbelow hbefore ih hlast).2
  exact ⟨hplace, fun c hchild => hbelow hreach hplace hchild⟩

theorem nested_acyclic : ¬Cyclic (Child ⟨b, (nested hash64 keyOffset).header hash64⟩)
    (IsRoot ⟨b, (nested hash64 keyOffset).header hash64⟩) := by
  refine not_cyclic_of_climbs (fun a => ∃ root,
    IsRoot ⟨b, (nested hash64 keyOffset).header hash64⟩ root ∧
      Relation.ReflTransGen (Child ⟨b, (nested hash64 keyOffset).header hash64⟩) root a)
    (fun a => 175 - a.toNat) ?_ ?_
  · intro a ha
    exact ⟨a, ha, .refl⟩
  · rintro a c ⟨root, hroot, hreach⟩ hchild
    obtain ⟨rfl, rfl⟩ := (nested_reached hbytes hroot hreach).2 c hchild
    exact ⟨⟨root, hroot, hreach.tail hchild⟩, by decide⟩

/-- All nodes are sound if what there is of the key is. -/
theorem nested_sound_file (hkey : KeySound ⟨b, (nested hash64 keyOffset).header hash64⟩
      ⟨0, keyOffset, 1, 152⟩) :
    FileSound ⟨b, (nested hash64 keyOffset).header hash64⟩ := by
  obtain ⟨hroots, hvalue, hblock, hbody, -⟩ := nested_nodes hbytes
  obtain ⟨-, -, hpool⟩ := Parts.hasAt hbytes
  rw [nested_stringsStart] at hpool
  constructor
  · intro entry hentry
    have hheld : RootsHeld b ((nested hash64 keyOffset).header hash64)
      (nested hash64 keyOffset).entries := (nested_sound hash64 keyOffset).rootsHeld hbytes
    rw [List.mem_singleton.mp (hheld.mem rfl hentry)]
    exact KeySound.of_record hpool areSequences_letter rfl
  · intro root offset hroot hreach
    rcases (nested_reached hbytes hroot hreach).1 with rfl | rfl
    · refine ⟨.block, hblock, ⟨_, hbody⟩, ?_⟩
      intro entry hentry
      rwa [nested_entries hbytes hroot hreach hentry]
    · refine ⟨.int64, hvalue, 160, ?_⟩
      have hsize : (⟨b, (nested hash64 keyOffset).header hash64⟩ : Reader).size = 248 := by
        rw [Reader.size, Buffer.size, hbytes, Parts.length_file, nested_footerStart]
        rfl
      rw [scalarBody, hvalue, ok_bind, if_neg (not_not.mpr rfl), hsize]
      decide

end

/-- A core whose formatters refuse what the buffer has no room for. -/
def Core.fitted (core : Core σ) : Core σ :=
  let fit (size : Nat) (call : σ → Option Bytes × σ) (world : σ) : Option Bytes × σ :=
    ((call world).1.filter (·.length ≤ size), (call world).2)
  { core with
    formatSigned size value := fit size (core.formatSigned size value)
    formatUnsigned size value := fit size (core.formatUnsigned size value)
    formatDouble size bits := fit size (core.formatDouble size bits) }

theorem Core.fitted_fits (core : Core σ) : core.fitted.Fits where
  formatSigned _ _ _ _ h := of_decide_eq_true (Option.filter_eq_some_iff.mp h).2
  formatUnsigned _ _ _ _ h := of_decide_eq_true (Option.filter_eq_some_iff.mp h).2
  formatDouble _ _ _ _ h := of_decide_eq_true (Option.filter_eq_some_iff.mp h).2

/-- With the key `a` for the integer, no export in any format leaves the file. -/
theorem exports_inside_nested : ∃ (b : Buffer) (r : Reader),
    verifyBuffer (fun _ => 0) b = .ok .ok ∧ openBuffer true b = .ok r ∧
      ∀ lib options format levels,
        (exportAs plainCore.fitted lib options r [] format levels).1 ≠ .error .fault := by
  obtain ⟨b, hbytes⟩ : ∃ b : Buffer, b.bytes = (nested (fun _ => 0) 208).file fun _ => 0 :=
    (nested_sound (fun _ => 0) 208).exists_buffer
  have hverified := (nested_sound (fun _ => 0) 208).verified hbytes
  have hlength : b.bytes.length = 248 := by
    rw [hbytes, Parts.length_file, nested_footerStart]
  refine ⟨b, _, hverified, Parts.opened hbytes, ?_⟩
  intro lib options format levels
  refine exports_inside hverified (Parts.opened hbytes) ?_ sorts_insertionSortWith lib options []
    format ?_ levels
  · intro root block entry hroot hreach hentry
    rw [nested_entries hbytes hroot hreach hentry]
    refine .inr ?_
    change (208 : UInt32).toNat + 4 + (1 : UInt32).toNat ≤ b.bytes.length
    rw [hlength]
    decide
  · intro _
    rw [hlength]
    exact ⟨plainCore.fitted_fits, by decide⟩

/-- The file with a key behind its end. -/
def straying : Buffer where
  bytes := (nested (fun _ => 0) 0xFFFFFFF0).file fun _ => 0
  length_lt := by
    rw [Parts.length_file, nested_footerStart]
    decide

theorem plainCore_serves : plainCore.Serves where
  writeBytes _ _ := rfl
  allocate _ _ := rfl
  formatSigned _ _ _ := Option.some_ne_none _
  formatUnsigned _ _ _ := Option.some_ne_none _
  formatHexadecimal _ _ _ _ := Option.some_ne_none _
  formatDouble _ _ _ := Option.some_ne_none _

/-- With the key `a` for the integer, no export in any format leaves the file; with a key behind the
file, exports to JSON leave it, with any options. -/
theorem exports_inside_iff_nested : ∃ (b : Buffer) (r r' : Reader),
    verifyBuffer (fun _ => 0) b = .ok .ok ∧ openBuffer true b = .ok r ∧
      verifyBuffer (fun _ => 0) straying = .ok .ok ∧ openBuffer true straying = .ok r' ∧
      (∀ lib options format levels,
        (exportAs plainCore.fitted lib options r [] format levels).1 ≠ .error .fault) ∧
      ∀ lib options levels, 248 < levels →
        (exportAs plainCore lib options r' [] .json levels).1 = .error .fault := by
  obtain ⟨b, hbytes⟩ : ∃ b : Buffer, b.bytes = (nested (fun _ => 0) 208).file fun _ => 0 :=
    (nested_sound (fun _ => 0) 208).exists_buffer
  have hlength : b.bytes.length = 248 := by
    rw [hbytes, Parts.length_file, nested_footerStart]
  have hstraying : straying.bytes = (nested (fun _ => 0) 0xFFFFFFF0).file fun _ => 0 := rfl
  have hlength' : straying.bytes.length = 248 := by
    rw [hstraying, Parts.length_file, nested_footerStart]
  have hverified := (nested_sound (fun _ => 0) 208).verified hbytes
  have hverified' := (nested_sound (fun _ => 0) 0xFFFFFFF0).verified hstraying
  refine ⟨b, _, _, hverified, Parts.opened hbytes, hverified', Parts.opened hstraying, ?_, ?_⟩
  · intro lib options format levels
    refine (exports_inside_iff hverified (Parts.opened hbytes)).1 ?_ plainCore.fitted
      sorts_insertionSortWith lib options [] format levels ?_
    · intro root hroot block entry hreach hentry
      rw [nested_entries hbytes hroot hreach hentry]
      refine .inr ?_
      change (208 : UInt32).toNat + 4 + (1 : UInt32).toNat ≤ b.bytes.length
      rw [hlength]
      decide
    · intro _
      rw [hlength]
      exact ⟨plainCore.fitted_fits, by decide⟩
  · intro lib options levels hlarge
    rw [← hlength'] at hlarge
    have hsound := nested_sound_file hstraying (TextSound.of_outside (by rw [hlength']; decide))
    have hiff := (exports_inside_iff hverified' (Parts.opened hstraying)).2 hsound
      (nested_acyclic hstraying) plainCore plainCore_serves sorts_insertionSortWith lib options []
      levels hlarge
    obtain ⟨hroots, -, hblock, hbody, hentry⟩ := nested_nodes hstraying
    by_contra hnofault
    have hkey := hiff.mp hnofault 175 ((hroots 175).mpr rfl) 175 _ .refl
      ⟨hblock, _, _, hbody, 0, Nat.one_pos, hentry⟩
    rw [KeyInside, hlength'] at hkey
    exact absurd hkey (by decide)

/-- With a key behind the file, an export to JSON leaves it, as deeply as its calls may be nested. -/
theorem nested_strays : ∃ r : Reader, verifyBuffer (fun _ => 0) straying = .ok .ok ∧
    openBuffer true straying = .ok r ∧ ∀ lib levels, 2 ≤ levels →
      (exportAs plainCore lib (some ⟨0, false, false⟩) r [] .json levels).1 = .error .fault := by
  refine ⟨_, (nested_sound (fun _ => 0) 0xFFFFFFF0).verified rfl, Parts.opened rfl, ?_⟩
  intro lib levels hle
  have hfault : (exportAs plainCore lib (some ⟨0, false, false⟩) ⟨straying,
      (nested (fun _ => 0) 0xFFFFFFF0).header fun _ => 0⟩ [] .json 2).1 = .error .fault := by
    change (exportJsonEx plainCore 2 _ (some ⟨0, false, false⟩) []).1 = .error .fault
    decide +kernel
  rw [exportAs_approximates plainCore lib _ _ [] .json hle (by rw [hfault]; decide)]
  exact hfault

end Hrbl
