import Hrbl.Depth
import Hrbl.Formatting

/-!
# Exports that nothing refuses

Where the sink, the allocator and the formatters refuse nothing, and the nodes that are reached are
sound, an export to JSON does not fail: it returns `true`, or runs out of levels, or leaves the file
at a key.
-/

namespace Hrbl

open Lib Lib.Outcome

variable {σ : Type}

/-! ## Sound files -/

/-- No call refuses anything. -/
structure Core.Serves (core : Core σ) : Prop extends core.ServesOthers where
  formatDouble : ∀ size bits world, (core.formatDouble size bits world).1 ≠ none

section

variable (r : Reader)

/-- What there is in the file of a text can be taken apart into sequences. -/
def TextSound (place : UInt64) (length : Nat) : Prop :=
  AreSequences ((r.base.from place).take length)

/-- The key of an entry can. -/
def KeySound (entry : Entry) : Prop :=
  TextSound r (entry.keyPoolOffset.toUInt64 + 4) entry.keyLength.toNat

/-- The reader finds what a node of this kind has, and its texts are sound. -/
def BodySound (offset : UInt64) : Kind → Prop
  | .null | .false | .true => True
  | .int64 => ∃ body, scalarBody r offset .int64 = .ok body
  | .uint64 => ∃ body, scalarBody r offset .uint64 = .ok body
  | .float64 => ∃ body, scalarBody r offset .float64 = .ok body
  | .string => ∃ range, scalarStringAt r offset = .ok range ∧
      TextSound r range.offset range.length.toNat
  | .block => (∃ body, blockBodyOffsets r offset = .ok body) ∧
      ∀ entry, EntryOf r offset entry → KeySound r entry
  | .array => ∃ body, arrayBodyOffsets r offset = .ok body

def NodeSound (offset : UInt64) : Prop := ∃ kind, kindAt r offset = .ok kind ∧ BodySound r offset kind

/-- All nodes that are reached from the root index are sound, and so are the keys of the roots. -/
structure FileSound : Prop where
  root : ∀ entry, RootEntry r entry → KeySound r entry
  node : ∀ root offset, IsRoot r root → Relation.ReflTransGen (Child r) root offset →
    NodeSound r offset

end

/-- A text that is there is sound if it can be taken apart. -/
theorem TextSound.of_hasAt {r : Reader} {place : UInt64} {text : Bytes}
    (h : HasAt r.base.bytes place.toNat text) (htext : AreSequences text) :
    TextSound r place text.length := by
  obtain ⟨rest, hrest⟩ := h
  rw [TextSound, Buffer.from, ← hrest, List.take_left]
  exact htext

/-- A text of which nothing is in the file is. -/
theorem TextSound.of_outside {r : Reader} {place : UInt64} {length : Nat}
    (h : r.base.bytes.length ≤ place.toNat) : TextSound r place length := by
  rw [TextSound, Buffer.from, List.drop_of_length_le h, List.take_nil]
  exact areSequences_nil

/-- The key of an entry with its record is sound if it can be taken apart. -/
theorem KeySound.of_record {r : Reader} {entry : Entry} {key : Bytes}
    (h : HasAt r.base.bytes entry.keyPoolOffset.toNat (record key)) (hkey : AreSequences key)
    (hlength : entry.keyLength.toNat = key.length) : KeySound r entry := by
  have hlt := entry.keyPoolOffset.toNat_lt
  have hplace : (entry.keyPoolOffset.toUInt64 + 4).toNat = entry.keyPoolOffset.toNat + 4 := by
    rw [UInt64.toNat_add, UInt32.toNat_toUInt64, show (4 : UInt64).toNat = 4 from rfl]
    omega
  rw [record, hasAt_append, hasAt_append, length_leBytes] at h
  rw [KeySound, hlength]
  exact TextSound.of_hasAt (hplace ▸ h.1.2) hkey

theorem areSequences_letter : AreSequences [0x61] :=
  (areSequences_append (.inl ⟨0x61, rfl, by decide, rfl⟩)).mpr areSequences_nil

/-! ## Going on -/

/-- From a state without a mark the computation does not stop by a failure. -/
abbrev Proceeds {α : Type} (m : ExportM σ α) : Prop :=
  Keeps (fun s => s.writeFailed = false) (fun e _ => e ≠ .failed) m

/-- Of a sound text a turn takes a sequence, unless the file ends. -/
theorem jsonPiece_sound (asciiOnly : Bool) {data : Bytes} {remaining : Nat} (hpos : 0 < remaining)
    (h : AreSequences (data.take remaining)) : jsonPiece asciiOnly data remaining = .fault ∨
      ∃ piece consumed, jsonPiece asciiOnly data remaining = .ok (piece, consumed) ∧
        AreSequences ((data.drop consumed).take (remaining - consumed)) := by
  by_cases hnil : data.take remaining = []
  · have hdata : data = [] := by
      rcases List.take_eq_nil_iff.mp hnil with hzero | hdata
      · omega
      · exact hdata
    rw [hdata]
    exact .inl rfl
  · refine .inr ?_
    -- what the first piece takes is a whole sequence, and what is left of the text is sound
    rcases jsonPiece_cases asciiOnly hnil with ⟨q, after, v, piece, heq, hq, hok, -⟩ | ⟨hnot, -⟩
    · have hroom := (jsonPiece_within hok).2 remaining (List.length_take_le _ _)
      rw [jsonPiece_take hpos] at hroom
      refine ⟨piece, q.length, hroom, ?_⟩
      rw [← List.drop_take, heq, List.drop_left]
      rwa [heq, areSequences_append hq] at h
    · obtain ⟨qs, hflatten, hall⟩ := h
      cases qs with
      | nil => exact absurd hflatten hnil
      | cons q qs =>
        obtain ⟨v, hq⟩ := (List.forall_mem_cons.mp hall).1
        exact absurd ⟨q, qs.flatten, v, hflatten, hq⟩ hnot

namespace Proceeds

variable {core : Core σ} {options : Option ExportOptions} {r : Reader}

theorem keepsJson (h : core.Serves) :
    core.KeepsJson (fun s => s.writeFailed = false) (fun e _ => e ≠ .failed) := by
  have hserved : ∀ {α : Type} {served : α → Prop} {call : σ → α × σ},
      (∀ world, served (call world).1) →
      Served (fun s => s.writeFailed = false) (fun e _ => e ≠ .failed) served call :=
    fun hcall s hs => ⟨fun _ => hs, fun hnot => absurd (hcall s.world) hnot⟩
  constructor
  case toKeeps =>
    constructor
    · intro s hs hmarked
      rw [hs] at hmarked
      cases hmarked
    · exact fun data => hserved (h.writeBytes data)
    · exact fun bytes => hserved (h.allocate bytes)
    · exact fun size value => hserved (h.formatSigned size value)
    · exact fun size value => hserved (h.formatUnsigned size value)
    · exact fun size value width => hserved (h.formatHexadecimal size value width)
  case formatDouble => exact fun size bits => hserved (h.formatDouble size bits)

theorem throw {α : Type} {e : ExportStop} (h : e ≠ .failed) : Proceeds (throw e : ExportM σ α) :=
  Keeps.throw fun _ _ => h

/-- A call of the reader that does not return `false`. -/
theorem fromReader {α : Type} {x : Outcome α} (h : x ≠ .no) :
    Proceeds (fromReader x : ExportM σ α) := by
  cases x with
  | ok a => exact .pure a
  | no => exact absurd rfl h
  | fault => exact throw (by decide)

/-- A call of the reader that is known to return. -/
theorem found {α β : Type} {x : Outcome α} {a : α} (hx : x = .ok a) {m : α → ExportM σ β}
    (hm : Proceeds (m a)) : Proceeds (Hrbl.fromReader x >>= m) := by
  rw [hx]
  exact hm

theorem jsonStringLoop (h : core.Serves) {data : Bytes} {length index : Nat}
    (htext : AreSequences ((data.drop index).take (length - index))) :
    Proceeds (jsonStringLoop core options data length index) := by
  fun_induction Hrbl.jsonStringLoop core options data length index with
  | case1 index hlt hno =>
    rcases jsonPiece_sound (asciiOnlyOf options) (Nat.sub_pos_of_lt hlt) htext with
      hfault | ⟨piece, consumed, hok, -⟩
    · rw [hno] at hfault
      cases hfault
    · rw [hno] at hok
      cases hok
  | case2 => exact throw (by decide)
  | case3 index hlt piece consumed hpiece ih =>
    refine (Keeps.writePiece (keepsJson h) piece).bind fun _ => ih ?_
    rcases jsonPiece_sound (asciiOnlyOf options) (Nat.sub_pos_of_lt hlt) htext with
      hfault | ⟨piece', consumed', hok, hrest⟩
    · rw [hpiece] at hfault
      cases hfault
    · rw [hpiece] at hok
      cases hok
      rwa [List.drop_drop, Nat.sub_sub] at hrest
  | case4 => exact .pure _

theorem writeJsonString (h : core.Serves) {place : UInt64} {length : Nat}
    (htext : TextSound r place length) :
    Proceeds (writeJsonString core options (r.base.from place) length) := by
  refine (Keeps.exportWriteAll (keepsJson h).toKeeps _).bind fun _ => ?_
  refine (jsonStringLoop h ?_).bind fun _ => Keeps.exportWriteAll (keepsJson h).toKeeps _
  rwa [List.drop_zero, Nat.sub_zero]

theorem sortEntries {α : Type} {less : α → α → Outcome Bool} (entries : List α) :
    Proceeds (sortEntries core less entries) :=
  .ite (fun _ => throw (by decide)) fun _ => .pure _

theorem arrangeEntries (entries : List SortEntry) :
    Proceeds (arrangeEntries core options r entries) :=
  .ite (fun _ => sortEntries entries) fun _ => sortEntries entries

end Proceeds

/-! ## Nodes -/

theorem copyEntries_ne_no {α : Type} {r : Reader} {copy : UInt64 → Entry → α} {count : Nat}
    {offset : UInt64} : copyEntries r copy count offset ≠ .no := by
  induction count generalizing offset with
  | zero => exact fun h => by cases h
  | succ count ih => exact bind_ne_no loadEntry_ne_no fun _ _ => bind_ne_no ih fun _ _ => by simp

section

variable {core : Core σ} (h : core.Serves) {options : Option ExportOptions} {r : Reader}
  {child : UInt64 → UInt32 → ExportM σ Unit}

include h

theorem exportEntriesLoop_proceeds {entries : List SortEntry}
    (hentries : ∀ e ∈ entries, TextSound r (e.keyPoolOffset + 4) e.keyLength.toNat ∧
      ∀ depth, Proceeds (child e.valueOffset depth)) (depth : UInt32) (first : Bool) :
    Proceeds (exportEntriesLoop core options r child depth first entries) := by
  induction entries generalizing first with
  | nil => exact .pure _
  | cons entry entries ih =>
    obtain ⟨⟨hkey, hchild⟩, hrest⟩ := List.forall_mem_cons.mp hentries
    have hcore := Proceeds.keepsJson h
    rw [exportEntriesLoop]
    refine Keeps.separator hcore options ?_
    refine (Keeps.writeIndent hcore options _).bind fun _ => ?_
    refine (Proceeds.writeJsonString h hkey).bind fun _ => ?_
    refine Keeps.colon hcore options ?_
    exact (hchild depth).bind fun _ => ih hrest false

theorem exportElementsLoop_proceeds {count : Nat} {offset : UInt64}
    (hinside : offset.toNat + count * 8 ≤ r.base.bytes.length)
    (helements : ∀ i < count, ∀ c, HasAt r.base.bytes (offset.toNat + i * 8) (le64 c) →
      ∀ depth, Proceeds (child c depth)) (depth : UInt32) (first : Bool) :
    Proceeds (exportElementsLoop core options r child depth first count offset) := by
  have hlength := r.base.length_lt
  have hwidth : arrayElementSize.toNat = 8 := rfl
  have hcore := Proceeds.keepsJson h
  induction count generalizing first offset with
  | zero => exact .pure _
  | succ count ih =>
    have hnext : (offset + arrayElementSize).toNat = offset.toNat + 8 := by
      rw [UInt64.toNat_add, hwidth]
      omega
    rw [exportElementsLoop]
    refine Keeps.separator hcore options ?_
    refine (Keeps.writeIndent hcore options _).bind fun _ => ?_
    refine (Proceeds.fromReader loadU64_ne_no).bind_returns (fromReader_returns _) fun c hc => ?_
    have hat := loadU64_eq_ok.mp hc
    refine (helements 0 (Nat.succ_pos count) c (by simpa using hat) depth).bind fun _ => ?_
    refine ih ?_ ?_ false
    · rw [hnext]
      omega
    · intro i hi c hc
      refine helements (i + 1) (Nat.succ_lt_succ hi) c ?_
      rwa [Nat.succ_mul, Nat.add_comm (i * 8), ← Nat.add_assoc, ← hnext]

theorem exportBlock_proceeds (hsort : Sorts core.sortWithCompare) {offset : UInt64}
    (hkind : kindAt r offset = .ok .block) {header : BlockHeader} {start : UInt64}
    (hbody : blockBodyOffsets r offset = .ok (header, start))
    (hkeys : ∀ entry, EntryOf r offset entry → KeySound r entry)
    (hchild : ∀ c, Child r offset c → ∀ depth, Proceeds (child c depth)) (depth : UInt32) :
    Proceeds (exportBlock core options r child offset depth) := by
  have hcore := Proceeds.keepsJson h
  refine Proceeds.found hbody ?_
  refine .ite (fun _ => Keeps.exportWriteAll hcore.toKeeps _) fun _ => ?_
  refine (Keeps.exportWriteAll hcore.toKeeps _).bind fun _ => ?_
  refine (Keeps.writeNewline hcore options).bind fun _ => ?_
  refine (Keeps.scratchAlloc hcore.toKeeps _).bind fun _ => ?_
  refine (Proceeds.fromReader copyEntries_ne_no).bind_returns (fromReader_returns _)
    fun items hitems => ?_
  obtain ⟨hlisted, -⟩ := copyEntries_block hkind hbody hitems
  refine (Proceeds.arrangeEntries items).bind_returns (arrangeEntries_perm hsort items)
    fun arranged hperm => ?_
  refine (exportEntriesLoop_proceeds h ?_ _ _).bind fun _ => ?_
  · intro item hitem
    obtain ⟨place, entry, hentry, rfl⟩ := hlisted item (hperm.mem_iff.mp hitem)
    exact ⟨hkeys entry hentry, hchild _ (.entry hentry)⟩
  · exact (Keeps.writeNewline hcore options).bind fun _ =>
      (Keeps.writeIndent hcore options _).bind fun _ => Keeps.exportWriteAll hcore.toKeeps _

theorem exportArray_proceeds {offset : UInt64} (hkind : kindAt r offset = .ok .array)
    {header : ArrayHeader} {start : UInt64} (hbody : arrayBodyOffsets r offset = .ok (header, start))
    (hchild : ∀ c, Child r offset c → ∀ depth, Proceeds (child c depth)) (depth : UInt32) :
    Proceeds (exportArray core options r child offset depth) := by
  have hcore := Proceeds.keepsJson h
  refine Proceeds.found hbody ?_
  refine .ite (fun _ => Keeps.exportWriteAll hcore.toKeeps _) fun _ => ?_
  refine (Keeps.exportWriteAll hcore.toKeeps _).bind fun _ => ?_
  refine (Keeps.writeNewline hcore options).bind fun _ => ?_
  refine (exportElementsLoop_proceeds h (arrayBodyOffsets_inside hbody) ?_ _ _).bind fun _ => ?_
  · intro i hi c hat
    exact hchild c (.element ⟨hkind, header, start, hbody, i, hi, hat⟩)
  · exact (Keeps.writeNewline hcore options).bind fun _ =>
      (Keeps.writeIndent hcore options _).bind fun _ => Keeps.exportWriteAll hcore.toKeeps _

/-- An export of a value does not fail when all nodes from it on are sound. -/
theorem exportValue_proceeds (hsort : Sorts core.sortWithCompare) (levels : Nat) {offset : UInt64}
    (hsound : ∀ node, Relation.ReflTransGen (Child r) offset node → NodeSound r node)
    (depth : UInt32) : Proceeds (exportValue core options r levels offset depth) := by
  -- on the levels; what is below a sound node is sound, so the hypothesis goes down with them
  induction levels generalizing offset depth with
  | zero => exact Proceeds.throw (by decide)
  | succ levels ih =>
    have hcore := Proceeds.keepsJson h
    have hchild : ∀ c, Child r offset c → ∀ depth,
        Proceeds (exportValue core options r levels c depth) :=
      fun c hchild => ih fun node hreach => hsound node (.head hchild hreach)
    obtain ⟨kind, hkind, hbody⟩ := hsound offset .refl
    have hload : ∀ {kind : Kind} {α : Type} {f : UInt64 → Outcome α},
        (∃ body, scalarBody r offset kind = .ok body) → (∀ body, f body ≠ .no) →
        (scalarBody r offset kind >>= f) ≠ .no := by
      rintro kind α f ⟨body, hbody⟩ hf
      rw [hbody]
      exact hf body
    refine Proceeds.found hkind ?_
    cases kind with
    | null => exact Keeps.exportWriteAll hcore.toKeeps _
    | false => exact Keeps.exportWriteAll hcore.toKeeps _
    | true => exact Keeps.exportWriteAll hcore.toKeeps _
    | int64 =>
      exact (Proceeds.fromReader (hload hbody fun _ =>
        bind_ne_no loadU64_ne_no fun _ _ => by simp)).bind fun _ => Keeps.writeNumberInt64 hcore _
    | uint64 =>
      exact (Proceeds.fromReader (hload hbody fun _ => loadU64_ne_no)).bind fun _ =>
        Keeps.writeNumberUint64 hcore _
    | float64 =>
      exact (Proceeds.fromReader (hload hbody fun _ => loadU64_ne_no)).bind fun _ =>
        Keeps.writeNumberFloat64 hcore _
    | string =>
      obtain ⟨range, hrange, htext⟩ := hbody
      exact Proceeds.found hrange (Proceeds.writeJsonString h htext)
    | block =>
      obtain ⟨⟨⟨header, start⟩, hbody⟩, hkeys⟩ := hbody
      exact exportBlock_proceeds h hsort hkind hbody hkeys hchild depth
    | array =>
      obtain ⟨⟨header, start⟩, hbody⟩ := hbody
      exact exportArray_proceeds h hkind hbody hchild depth

theorem exportRoots_proceeds (hsort : Sorts core.sortWithCompare) (hsound : FileSound r)
    (levels : Nat) : Proceeds (exportRoots core options r levels) := by
  have hcore := Proceeds.keepsJson h
  -- memory is not refused, so the call that would fail is never made
  have halloc : ∀ bytes, Proceeds (scratchAlloc core bytes (throw .failed)) := by
    intro bytes s hs
    rw [scratchAlloc, callCore_bind, h.allocate]
    refine ⟨fun a s' hok => ?_, fun e s' hstop => ?_⟩
    · cases hok
      exact hs
    · cases hstop
  refine .ite (fun _ => ?_) fun _ => ?_
  · exact (Keeps.exportWriteAll hcore.toKeeps _).bind fun _ => Keeps.writeNewline hcore options
  refine (Keeps.exportWriteAll hcore.toKeeps _).bind fun _ => ?_
  refine (Keeps.writeNewline hcore options).bind fun _ => ?_
  refine (halloc _).bind fun _ => ?_
  refine (Proceeds.fromReader copyEntries_ne_no).bind_returns (fromReader_returns _)
    fun items hitems => ?_
  obtain ⟨hlisted, -⟩ := copyEntries_root hitems
  refine (Proceeds.arrangeEntries items).bind_returns (arrangeEntries_perm hsort items)
    fun arranged hperm => ?_
  refine (exportEntriesLoop_proceeds h ?_ _ _).bind fun _ => ?_
  · intro item hitem
    obtain ⟨place, entry, hentry, rfl⟩ := hlisted item (hperm.mem_iff.mp hitem)
    refine ⟨hsound.root entry hentry, fun depth => ?_⟩
    exact exportValue_proceeds h hsort levels
      (fun node hreach => hsound.node _ node ⟨entry, hentry, rfl⟩ hreach) depth
  · exact (Keeps.writeNewline hcore options).bind fun _ =>
      (Keeps.exportWriteAll hcore.toKeeps _).bind fun _ => Keeps.writeNewline hcore options

/-- On a sound file an export to JSON that nothing refuses returns `true`, or leaves the file, or
runs out of levels. -/
theorem exportJsonEx_proceeds (hsort : Sorts core.sortWithCompare) (hsound : FileSound r)
    (levels : Nat) (world : σ) :
    (exportJsonEx core levels r options world).1 = .ok true ∨
      (exportJsonEx core levels r options world).1 = .error .fault ∨
      (exportJsonEx core levels r options world).1 = .error .overflow := by
  have hproceeds : Proceeds (exportRoots core options r levels) :=
    exportRoots_proceeds h hsort hsound levels
  obtain ⟨hok, herror⟩ := hproceeds { world, writeFailed := false } rfl
  rw [exportJsonEx]
  cases hrun : exportRoots core options r levels { world, writeFailed := false } with
  | ok a s =>
    rw [exportEnd_ok hrun, hok a s hrun]
    exact .inl rfl
  | error stop s =>
    rw [exportEnd_error hrun]
    cases stop with
    | failed => exact absurd rfl (herror _ s hrun)
    | fault => exact .inr (.inl rfl)
    | overflow => exact .inr (.inr rfl)

end

end Hrbl
