import Hrbl.Graph
import Hrbl.Keeping
import Hrbl.Escaping
import Hrbl.PrintingYaml

/-!
# Exports of any file

How an export of a file that need not be one of the writer's can end other than by a failure: its
calls are nested deeper than there are levels, or a read leaves the file. The first takes a chain of
nodes of that length, the second a key that is not in the file. And an export that returns `true`
has been at the end of every chain.
-/

namespace Hrbl

open Lib Lib.Outcome

variable {σ : Type}

/-! ## Strings and keys -/

/-- A string whose bytes are all there is read inside of them. -/
theorem jsonPiece_safe {asciiOnly : Bool} {data : Bytes} {remaining : Nat} (hpos : 0 < remaining)
    (hle : remaining ≤ data.length) : Safe (jsonPiece asciiOnly data remaining) := by
  have hlength : (data.take remaining).length = remaining := by
    rw [List.length_take]
    omega
  have hne : data.take remaining ≠ [] := by
    intro hnil
    rw [hnil, List.length_nil] at hlength
    omega
  rw [← jsonPiece_take hpos]
  rcases jsonPiece_cases asciiOnly hne with ⟨q, rest, v, piece, -, -, hok, -⟩ | ⟨-, hno⟩
  · rw [hlength] at hok
    rw [hok]
    exact safe_ok _
  · rw [hlength] at hno
    rw [hno]
    exact safe_no

/-- Continuation bytes that are taken are there. -/
theorem utf8Continuation_within {rest : Bytes} {n : Nat} {lead codepoint : UInt32}
    (h : utf8Continuation rest n lead = .ok codepoint) : n ≤ rest.length := by
  induction n generalizing rest lead with
  | zero => exact Nat.zero_le _
  | succ n ih =>
    cases rest with
    | nil => cases h
    | cons byte rest =>
      rw [utf8Continuation] at h
      split at h
      · cases h
      · exact Nat.succ_le_succ (ih h)

/-- A sequence that is decoded is there, and it is with more room. -/
theorem exportUtf8Decode_within {data : Bytes} {remaining consumed : Nat} {codepoint : UInt32}
    (h : exportUtf8Decode data remaining = .ok (codepoint, consumed)) :
    consumed ≤ data.length ∧ ∀ room, remaining ≤ room →
      exportUtf8Decode data room = .ok (codepoint, consumed) := by
  cases data with
  | nil => cases h
  | cons byte rest =>
    rw [exportUtf8Decode] at h
    simp only [exportUtf8Decode]
    -- only the check of the room reads what remains, and more room passes it as well
    split at h
    · rename_i hascii
      cases h
      exact ⟨Nat.succ_le_succ (Nat.zero_le _), fun room _ => if_pos hascii⟩
    · rename_i hhigh
      cases hlead : utf8Lead byte with
      | none =>
        rw [hlead] at h
        cases h
      | some announced =>
        obtain ⟨continuations, lead⟩ := announced
        rw [hlead] at h
        dsimp only at h ⊢
        split at h
        · cases h
        · cases hcontinuation : utf8Continuation rest continuations lead with
          | no =>
            rw [hcontinuation] at h
            cases h
          | fault =>
            rw [hcontinuation] at h
            cases h
          | ok value =>
            rw [hcontinuation] at h
            cases h
            refine ⟨Nat.succ_le_succ (utf8Continuation_within hcontinuation), ?_⟩
            intro room hroom
            rw [if_neg hhigh, if_neg (by omega)]

/-- So is what a turn over a string is done with. -/
theorem jsonPiece_within {asciiOnly : Bool} {data : Bytes} {remaining consumed : Nat}
    {piece : JsonPiece} (h : jsonPiece asciiOnly data remaining = .ok (piece, consumed)) :
    consumed ≤ data.length ∧ ∀ room, remaining ≤ room →
      jsonPiece asciiOnly data room = .ok (piece, consumed) := by
  cases data with
  | nil => cases h
  | cons byte rest =>
    have hone : 1 ≤ (byte :: rest).length := Nat.succ_le_succ (Nat.zero_le _)
    rw [jsonPiece] at h
    simp only [jsonPiece]
    -- a replacement and a printed byte take one byte; only the decoder looks at the room
    cases hreplacement : jsonReplacement byte with
    | some replacement =>
      rw [hreplacement] at h
      cases h
      exact ⟨hone, fun room _ => rfl⟩
    | none =>
      rw [hreplacement] at h
      dsimp only at h ⊢
      split at h
      · rename_i hcontrol
        cases h
        exact ⟨hone, fun room _ => if_pos hcontrol⟩
      · rename_i hprinted
        split at h
        · rename_i hascii
          cases h
          exact ⟨hone, fun room _ => by rw [if_neg hprinted, if_pos hascii]⟩
        · rename_i hhigh
          cases hdecode : exportUtf8Decode (byte :: rest) remaining with
          | no =>
            rw [hdecode] at h
            cases h
          | fault =>
            rw [hdecode] at h
            cases h
          | ok decoded =>
            obtain ⟨codepoint, length⟩ := decoded
            obtain ⟨hwithin, hmore⟩ := exportUtf8Decode_within hdecode
            rw [hdecode] at h
            dsimp only at h
            have hlength : length = consumed := by
              split at h
              · cases h
                rfl
              · split at h
                · cases h
                  rfl
                · cases h
                  rfl
            refine ⟨hlength ▸ hwithin, fun room hroom => ?_⟩
            rw [if_neg hprinted, if_neg hhigh, hmore room hroom]
            exact h

/-- A string that the reader returns is in the file. -/
theorem scalarStringAt_inside {r : Reader} {offset : UInt64} {range : Range}
    (h : scalarStringAt r offset = .ok range) :
    range.length.toNat ≤ (r.base.from range.offset).length := by
  have hfour : (4 : UInt64).toNat = 4 := rfl
  obtain ⟨body, -, h⟩ := bind_eq_ok.mp h
  obtain ⟨ref, -, h⟩ := bind_eq_ok.mp h
  have hplace := ref.poolOffset.toNat_lt
  have hlength := ref.length.toNat_lt
  dsimp only at h
  split at h
  · cases h
  · rename_i hend
    cases h
    rw [gt_iff_lt, UInt64.lt_iff_toNat_lt, UInt64.toNat_add, UInt64.toNat_add, hfour,
      Buffer.toNat_size, UInt32.toNat_toUInt64, UInt32.toNat_toUInt64] at hend
    rw [Buffer.from, List.length_drop, UInt64.toNat_add, hfour, UInt32.toNat_toUInt64,
      UInt32.toNat_toUInt64]
    omega

/-- A key that is in the file is behind its place. -/
theorem keyInside_iff {r : Reader} {entry : Entry} : KeyInside r entry ↔
    entry.keyLength.toNat ≤ (r.base.from (entry.keyPoolOffset.toUInt64 + 4)).length := by
  have hfour : (4 : UInt64).toNat = 4 := rfl
  have hlt := entry.keyPoolOffset.toNat_lt
  have hzero : entry.keyLength = 0 ↔ entry.keyLength.toNat = 0 := UInt32.toNat_inj.symm
  rw [KeyInside, hzero, Buffer.from, List.length_drop, UInt64.toNat_add, UInt32.toNat_toUInt64,
    hfour]
  omega

/-- A key that a call can be given: it is in the file, or has no bytes. -/
def Readable (r : Reader) (offset : UInt64) (length : UInt32) : Prop :=
  length = 0 ∨ ∃ key, KeyAt r offset length key

theorem KeyInside.readable {r : Reader} {entry : Entry} (h : KeyInside r entry) :
    Readable r entry.keyPoolOffset.toUInt64 entry.keyLength := by
  have hfour : (4 : UInt64).toNat = 4 := rfl
  have hlt := entry.keyPoolOffset.toNat_lt
  rcases h with hzero | hle
  · exact .inl hzero
  · refine .inr ⟨(r.base.bytes.drop (entry.keyPoolOffset.toNat + 4)).take entry.keyLength.toNat, ?_⟩
    have hplace : (entry.keyPoolOffset.toUInt64 + 4).toNat = entry.keyPoolOffset.toNat + 4 := by
      rw [UInt64.toNat_add, UInt32.toNat_toUInt64, hfour]
      omega
    have hlength : ((r.base.bytes.drop (entry.keyPoolOffset.toNat + 4)).take
        entry.keyLength.toNat).length = entry.keyLength.toNat := by
      rw [List.length_take, List.length_drop]
      omega
    constructor
    · exact hlength.symm
    · rw [hlength, load_ok_of_le (by rw [hplace]; omega), hplace]

/-- What can be compared with itself can be read. -/
theorem readable_of_keyLess {r : Reader} {offset : UInt64} {length : UInt32}
    (h : Safe (keyLess r offset length offset length)) : Readable r offset length := by
  by_cases hzero : length = 0
  · exact .inl hzero
  · have hnat : length.toNat ≠ 0 := by
      intro hnat
      exact hzero (UInt32.toNat_inj.mp hnat)
    refine .inr ?_
    cases hload : load r.base (offset + 4) length.toNat with
    | ok key =>
      obtain ⟨hle, hkey⟩ := load_eq_ok hload
      have hlength : key.length = length.toNat := by
        rw [hkey, List.length_take, List.length_drop]
        omega
      exact ⟨key, hlength.symm, by rw [hlength]; exact hload⟩
    | no => exact absurd hload load_ne_no
    | fault =>
      rw [keyLess, ite_self, loadBytes, if_neg hnat, hload] at h
      exact absurd h not_safe_fault

/-- The bytes of no key. -/
theorem keyBytes_zero (r : Reader) (offset : UInt64) : keyBytes r offset 0 = [] := by
  rw [keyBytes]
  cases hload : load r.base (offset + 4) (0 : UInt32).toNat with
  | ok key =>
    obtain ⟨-, hkey⟩ := load_eq_ok hload
    exact hkey
  | no => rfl
  | fault => rfl

/-- The comparison of keys that can be read is that of the keys. -/
theorem keyLess_readable {r : Reader} {aOffset bOffset : UInt64} {aLength bLength : UInt32}
    (ha : Readable r aOffset aLength) (hb : Readable r bOffset bLength) :
    keyLess r aOffset aLength bOffset bLength =
      .ok (decide (keyOrder (keyBytes r aOffset aLength) < keyOrder (keyBytes r bOffset bLength))) := by
  have hzero : (0 : UInt32).toNat = 0 := rfl
  have hnone : ∀ offset, loadBytes r.base offset 0 = .ok [] := fun offset => rfl
  rcases ha with rfl | ⟨a, ha⟩
  · -- no bytes are compared
    have hmin : (if (0 : UInt32) < bLength then (0 : UInt32) else bLength).toNat = 0 := by
      split
      · rfl
      · rename_i hge
        rw [UInt32.lt_iff_toNat_lt, hzero] at hge
        omega
    rw [keyLess, hmin, hnone, hnone, keyBytes_zero]
    rcases hb with rfl | ⟨b, hb⟩
    · rw [keyBytes_zero]
      rfl
    · rw [hb.keyBytes_eq]
      refine congrArg Outcome.ok (decide_eq_decide.mpr ?_)
      rw [UInt32.lt_iff_toNat_lt, hb.length_eq, hzero]
      cases b <;> simp [keyOrder]
  · rcases hb with rfl | ⟨b, hb⟩
    · have hmin : (if aLength < 0 then aLength else (0 : UInt32)).toNat = 0 := by
        rw [if_neg UInt32.not_lt_zero]
        rfl
      rw [keyLess, hmin, hnone, hnone, keyBytes_zero]
      refine congrArg Outcome.ok (decide_eq_decide.mpr ?_)
      refine iff_of_false UInt32.not_lt_zero ?_
      simp [keyOrder]
    · rw [ha.keyBytes_eq, hb.keyBytes_eq]
      exact keyLess_eq ha hb

/-! ## Stops -/

/-- How an exporter stops at a node with so many levels left, other than by a failure: there is none
left, the node itself is bad, or it stops below. -/
inductive Halts (r : Reader) (bad : UInt64 → Prop) : ExportStop → Nat → UInt64 → Prop where
  | overflow (offset : UInt64) : Halts r bad .overflow 0 offset
  | here {levels : Nat} {offset : UInt64} : bad offset → Halts r bad .fault (levels + 1) offset
  | child {stop : ExportStop} {levels : Nat} {parent child : UInt64} :
    Child r parent child → Halts r bad stop levels child → Halts r bad stop (levels + 1) parent

/-- The calls run out of levels at the end of a chain that is as long. -/
theorem Halts.chain {r : Reader} {bad : UInt64 → Prop} {levels : Nat} {offset : UInt64}
    (h : Halts r bad .overflow levels offset) :
    ∃ below : List UInt64, (offset :: below).IsChain (Child r) ∧ below.length = levels := by
  generalize hstop : ExportStop.overflow = stop at h
  induction h with
  | overflow offset => exact ⟨[], List.isChain_singleton offset, rfl⟩
  | here => cases hstop
  | child hchild _ ih =>
    obtain ⟨below, hchain, hlength⟩ := ih hstop
    refine ⟨_ :: below, List.isChain_cons_cons.mpr ⟨hchild, hchain⟩, ?_⟩
    rw [List.length_cons, hlength]

/-- A read leaves the file at a bad node. -/
theorem Halts.reaches {r : Reader} {bad : UInt64 → Prop} {levels : Nat} {offset : UInt64}
    (h : Halts r bad .fault levels offset) :
    ∃ node, Relation.ReflTransGen (Child r) offset node ∧ bad node := by
  generalize hstop : ExportStop.fault = stop at h
  induction h with
  | overflow => cases hstop
  | here hbad => exact ⟨_, .refl, hbad⟩
  | child hchild _ ih =>
    obtain ⟨node, hreach, hbad⟩ := ih hstop
    exact ⟨node, .head hchild hreach, hbad⟩

/-- Where the computation stops so, this is the case. -/
abbrev HaltsOnly {α : Type} (stop : ExportStop) (P : Prop) (m : ExportM σ α) : Prop :=
  Keeps (fun _ => True) (fun e _ => e = stop → P) m

namespace HaltsOnly

variable {stop : ExportStop} {P : Prop} {core : Core σ} {r : Reader}

/-- The calls of `bc_core` and the allocator do nothing but fail. -/
theorem keepsJson (hstop : stop ≠ .failed) :
    core.KeepsJson (fun _ => True) (fun e _ => e = stop → P) := by
  have hserved : ∀ {α : Type} (served : α → Prop) (call : σ → α × σ),
      Served (fun _ => True) (fun e _ => e = stop → P) served call := by
    intro α served call s _
    exact ⟨fun _ => trivial, fun _ h => absurd h.symm hstop⟩
  constructor
  case toKeeps =>
    constructor
    · intro s _ _ h
      exact absurd h.symm hstop
    · exact fun data => hserved _ _
    · exact fun bytes => hserved _ _
    · exact fun size value => hserved _ _
    · exact fun size value => hserved _ _
    · exact fun size value width => hserved _ _
  case formatDouble => exact fun size bits => hserved _ _

theorem keepsIni (hstop : stop ≠ .failed) :
    core.KeepsIni (fun _ => True) (fun e _ => e = stop → P) where
  toKeeps := (keepsJson hstop).toKeeps
  stop _ _ h := absurd h.symm hstop
  formatDouble _ _ _ _ := ⟨fun _ => trivial, fun _ h => absurd h.symm hstop⟩

theorem fail {α : Type} (hstop : stop ≠ .failed) :
    HaltsOnly stop P (fail : ExportM σ α) := by
  intro s _
  refine ⟨fun _ _ _ => trivial, ?_⟩
  intro e s' h
  cases h
  exact fun h => absurd h.symm hstop

theorem throw {α : Type} {e : ExportStop} (h : e = stop → P) :
    HaltsOnly stop P (throw e : ExportM σ α) :=
  Keeps.throw fun _ _ => h

/-- A call of the reader stops an export by a fault only if it does so itself. -/
theorem fromReader {α : Type} (hstop : stop ≠ .failed) {x : Outcome α}
    (hx : stop = .fault → ¬Safe x → P) : HaltsOnly stop P (fromReader x : ExportM σ α) := by
  cases x with
  | ok a => exact .pure a
  | no => exact fail hstop
  | fault => exact throw fun h => hx h.symm not_safe_fault

theorem callCore {α β : Type} {call : σ → α × σ} {m : α → ExportM σ β}
    (hm : ∀ a, HaltsOnly stop P (m a)) : HaltsOnly stop P (callCore call >>= m) := by
  intro s _
  rw [callCore_bind]
  exact hm _ _ trivial

/-- An allocation that fails as the caller says. -/
theorem scratchAlloc {failed : ExportM σ Unit} (hfailed : HaltsOnly stop P failed) (bytes : Nat) :
    HaltsOnly stop P (scratchAlloc core bytes failed) :=
  callCore fun _ => .ite (fun _ => .pure _) fun _ => hfailed

/-- An attempt stops only where what is attempted does. -/
theorem attempt {m : ExportM σ Unit} (hm : HaltsOnly stop P m) : HaltsOnly stop P (attempt m) :=
  Keeps.attempt (fun _ _ => trivial) (fun _ _ _ h => h) hm

theorem mono {α : Type} {Q : Prop} {m : ExportM σ α} (hm : HaltsOnly stop P m) (h : P → Q) :
    HaltsOnly stop Q m := by
  intro s hs
  obtain ⟨hok, herror⟩ := hm s hs
  exact ⟨hok, fun e s' hrun he => h (herror e s' hrun he)⟩

/-! ### Strings -/

theorem jsonStringLoop (hstop : stop ≠ .failed) (options : Option ExportOptions) {data : Bytes}
    {length : Nat} (hinside : stop = .fault → ¬length ≤ data.length → P) (index : Nat) :
    HaltsOnly stop P (jsonStringLoop core options data length index) := by
  fun_induction Hrbl.jsonStringLoop core options data length index with
  | case1 => exact fail hstop
  | case2 index hindex hpiece =>
    refine throw fun h => hinside h.symm ?_
    intro hle
    have hsafe : Safe (jsonPiece (asciiOnlyOf options) (data.drop index) (length - index)) :=
      jsonPiece_safe (Nat.sub_pos_of_lt hindex) (by rw [List.length_drop]; omega)
    rw [hpiece] at hsafe
    exact not_safe_fault hsafe
  | case3 index hindex piece consumed hpiece ih =>
    exact (Keeps.writePiece (keepsJson hstop) piece).bind fun _ => ih
  | case4 => exact .pure _

theorem writeJsonString (hstop : stop ≠ .failed) (options : Option ExportOptions) {data : Bytes}
    {length : Nat} (hinside : stop = .fault → ¬length ≤ data.length → P) :
    HaltsOnly stop P (writeJsonString core options data length) :=
  (Keeps.exportWriteAll (keepsJson hstop).toKeeps _).bind fun _ =>
    (jsonStringLoop hstop options hinside _).bind fun _ =>
    Keeps.exportWriteAll (keepsJson hstop).toKeeps _

/-! ### Entries -/

theorem sortEntries {α : Type} {less : α → α → Outcome Bool} {place : α → UInt64}
    {length : α → UInt32}
    (hless : ∀ a b, less a b = keyLess r (place a) (length a) (place b) (length b))
    {entries : List α}
    (hread : stop = .fault → ∀ e ∈ entries, ¬Readable r (place e) (length e) → P) :
    HaltsOnly stop P (sortEntries core less entries) := by
  refine .ite (fun hfault => throw fun hstop => ?_) fun _ => .pure _
  obtain ⟨a, ha, b, hb, hfault⟩ := hfault
  by_contra hP
  have hreadable : ∀ e ∈ entries, Readable r (place e) (length e) := by
    intro e he
    by_contra hnot
    exact hP (hread hstop.symm e he hnot)
  rw [hless, keyLess_readable (hreadable a ha) (hreadable b hb)] at hfault
  cases hfault

end HaltsOnly

/-- A sort by keys returns the entries that it is given. -/
theorem sortEntries_perm {core : Core σ} (hsort : Sorts core.sortWithCompare) {r : Reader}
    {α : Type} {less : α → α → Outcome Bool} {place : α → UInt64} {length : α → UInt32}
    (hless : ∀ a b, less a b = keyLess r (place a) (length a) (place b) (length b))
    (entries : List α) : Returns (fun sorted => sorted.Perm entries)
      (sortEntries core less entries : ExportM σ (List α)) := by
  refine .ite (fun _ => .throw _) fun hnofault => .pure ?_
  have hreadable : ∀ e ∈ entries, Readable r (place e) (length e) := by
    intro e he
    refine readable_of_keyLess fun hfault => hnofault ⟨e, he, e, he, ?_⟩
    rw [hless, hfault]
  have hcompare : ∀ a ∈ entries, ∀ b ∈ entries, decide (less a b = .ok true) = true ↔
      keyOrder (keyBytes r (place a) (length a)) < keyOrder (keyBytes r (place b) (length b)) := by
    intro a ha b hb
    rw [decide_eq_true_eq, hless, keyLess_readable (hreadable a ha) (hreadable b hb),
      Outcome.ok.injEq, decide_eq_true_eq]
  exact (hsort.by_key hcompare).1

theorem fromReader_returns {α : Type} (x : Outcome α) :
    Returns (fun a => x = .ok a) (fromReader x : ExportM σ α) := by
  intro s a s' h
  cases x with
  | ok b =>
    cases h
    rfl
  | no => cases h
  | fault => cases h

/-! ## JSON -/

section

variable {core : Core σ} {options : Option ExportOptions} {r : Reader}

/-- A block with a key that is not in the file. -/
def BadKey (r : Reader) (block : UInt64) : Prop := ∃ entry, EntryOf r block entry ∧ ¬KeyInside r entry

theorem arrangeEntries_perm (hsort : Sorts core.sortWithCompare) (entries : List SortEntry) :
    Returns (fun arranged => arranged.Perm entries) (arrangeEntries core options r entries) := by
  refine .ite (fun _ => ?_) fun _ => ?_
  · exact sortEntries_perm hsort (fun _ _ => rfl) entries
  · refine .ite (fun _ => .throw _) fun _ => .pure ?_
    have hcompare : ∀ a ∈ entries, ∀ b ∈ entries,
        decide (sortLessByOffset a b = .ok true) = true ↔
          a.entryOffset.toNat < b.entryOffset.toNat := by
      intro a _ b _
      rw [decide_eq_true_eq, sortLessByOffset, Outcome.ok.injEq, decide_eq_true_eq,
        UInt64.lt_iff_toNat_lt]
    exact (hsort.by_key hcompare).1

variable {stop : ExportStop} {P : Prop} {child : UInt64 → UInt32 → ExportM σ Unit}

theorem arrangeEntries_halts {entries : List SortEntry} (hread : stop = .fault → ∀ e ∈ entries,
      ¬Readable r e.keyPoolOffset e.keyLength → P) :
    HaltsOnly stop P (arrangeEntries core options r entries) := by
  refine .ite (fun _ => ?_) fun _ => ?_
  · exact HaltsOnly.sortEntries (fun _ _ => rfl) hread
  · refine .ite (fun hfault => ?_) fun _ => .pure _
    obtain ⟨a, -, b, -, hfault⟩ := hfault
    cases hfault

theorem exportEntriesLoop_halts (hstop : stop ≠ .failed) {entries : List SortEntry}
    (hentries : ∀ e ∈ entries,
      (stop = .fault → ¬e.keyLength.toNat ≤ (r.base.from (e.keyPoolOffset + 4)).length → P) ∧
      ∀ depth, HaltsOnly stop P (child e.valueOffset depth)) (depth : UInt32) (first : Bool) :
    HaltsOnly stop P (exportEntriesLoop core options r child depth first entries) := by
  induction entries generalizing first with
  | nil => exact .pure _
  | cons entry entries ih =>
    obtain ⟨⟨hkey, hchild⟩, hrest⟩ := List.forall_mem_cons.mp hentries
    have hcore : core.KeepsJson (fun _ => True) (fun e _ => e = stop → P) :=
      HaltsOnly.keepsJson hstop
    rw [exportEntriesLoop]
    refine Keeps.separator hcore options ?_
    refine (Keeps.writeIndent hcore options _).bind fun _ => ?_
    refine (HaltsOnly.writeJsonString hstop options hkey).bind fun _ => ?_
    refine Keeps.colon hcore options ?_
    exact (hchild depth).bind fun _ => ih hrest false

theorem exportElementsLoop_halts (hstop : stop ≠ .failed) {count : Nat} {offset : UInt64}
    (hinside : offset.toNat + count * 8 ≤ r.base.bytes.length)
    (helements : ∀ i < count, ∀ c, HasAt r.base.bytes (offset.toNat + i * 8) (le64 c) →
      ∀ depth, HaltsOnly stop P (child c depth)) (depth : UInt32) (first : Bool) :
    HaltsOnly stop P (exportElementsLoop core options r child depth first count offset) := by
  have hlength := r.base.length_lt
  have hwidth : arrayElementSize.toNat = 8 := rfl
  induction count generalizing first offset with
  | zero => exact .pure _
  | succ count ih =>
    have hcore : core.KeepsJson (fun _ => True) (fun e _ => e = stop → P) :=
      HaltsOnly.keepsJson hstop
    have hnext : (offset + arrayElementSize).toNat = offset.toNat + 8 := by
      rw [UInt64.toNat_add, hwidth]
      omega
    rw [exportElementsLoop]
    refine Keeps.separator hcore options ?_
    refine (Keeps.writeIndent hcore options _).bind fun _ => ?_
    refine (HaltsOnly.fromReader hstop fun _ hunsafe => ?_).bind_returns (fromReader_returns _)
      fun c hc => ?_
    · exact absurd (loadU64_safe (by omega)) hunsafe
    · have hat := loadU64_eq_ok.mp hc
      -- this element is the first of those that are left
      refine (helements 0 (Nat.succ_pos count) c (by simpa using hat) depth).bind fun _ => ?_
      refine ih ?_ ?_ false
      · rw [hnext]
        omega
      · intro i hi c hc
        refine helements (i + 1) (Nat.succ_lt_succ hi) c ?_
        rwa [Nat.succ_mul, Nat.add_comm (i * 8), ← Nat.add_assoc, ← hnext]

variable {bad : UInt64 → Prop} {levels : Nat} {offset : UInt64}

theorem exportBlock_halts (hstop : stop ≠ .failed) (hsort : Sorts core.sortWithCompare)
    (hbad : BadKey r offset → bad offset) (hkind : kindAt r offset = .ok .block)
    (hchild : ∀ c depth, HaltsOnly stop (Halts r bad stop levels c) (child c depth))
    (depth : UInt32) : HaltsOnly stop (Halts r bad stop (levels + 1) offset)
      (exportBlock core options r child offset depth) := by
  have hcore : core.KeepsJson (fun _ => True)
      (fun e _ => e = stop → Halts r bad stop (levels + 1) offset) := HaltsOnly.keepsJson hstop
  unfold exportBlock
  refine (HaltsOnly.fromReader hstop fun _ hunsafe => ?_).bind_returns (fromReader_returns _) ?_
  · exact absurd (blockBodyOffsets_safe offset) hunsafe
  rintro ⟨header, start⟩ hbody
  refine .ite (fun _ => Keeps.exportWriteAll hcore.toKeeps _) fun _ => ?_
  refine (Keeps.exportWriteAll hcore.toKeeps _).bind fun _ => ?_
  refine (Keeps.writeNewline hcore options).bind fun _ => ?_
  refine (Keeps.scratchAlloc hcore.toKeeps _).bind fun _ => ?_
  refine (HaltsOnly.fromReader hstop fun _ hunsafe => ?_).bind_returns (fromReader_returns _) ?_
  · exact absurd (copyEntries_safe (blockBodyOffsets_inside hbody)) hunsafe
  intro items hitems
  obtain ⟨hlisted, -⟩ := copyEntries_block hkind hbody hitems
  -- a key may leave the file where the entries are compared, and again where it is written
  refine (arrangeEntries_halts ?_).bind_returns (arrangeEntries_perm hsort items) ?_
  · rintro rfl item hitem hnot
    obtain ⟨place, entry, hentry, rfl⟩ := hlisted item hitem
    exact .here (hbad ⟨entry, hentry, fun hinside => hnot hinside.readable⟩)
  · intro arranged hperm
    refine (exportEntriesLoop_halts hstop ?_ _ _).bind fun _ => ?_
    · intro item hitem
      obtain ⟨place, entry, hentry, rfl⟩ := hlisted item (hperm.mem_iff.mp hitem)
      constructor
      · rintro rfl hnot
        exact .here (hbad ⟨entry, hentry, fun hinside => hnot (keyInside_iff.mp hinside)⟩)
      · intro depth
        exact HaltsOnly.mono (hchild _ depth) fun h => .child (.entry hentry) h
    · exact (Keeps.writeNewline hcore options).bind fun _ =>
        (Keeps.writeIndent hcore options _).bind fun _ => Keeps.exportWriteAll hcore.toKeeps _

theorem exportArray_halts (hstop : stop ≠ .failed) (hkind : kindAt r offset = .ok .array)
    (hchild : ∀ c depth, HaltsOnly stop (Halts r bad stop levels c) (child c depth))
    (depth : UInt32) : HaltsOnly stop (Halts r bad stop (levels + 1) offset)
      (exportArray core options r child offset depth) := by
  have hcore : core.KeepsJson (fun _ => True)
      (fun e _ => e = stop → Halts r bad stop (levels + 1) offset) := HaltsOnly.keepsJson hstop
  unfold exportArray
  refine (HaltsOnly.fromReader hstop fun _ hunsafe => ?_).bind_returns (fromReader_returns _) ?_
  · exact absurd (arrayBodyOffsets_safe offset) hunsafe
  rintro ⟨header, start⟩ hbody
  refine .ite (fun _ => Keeps.exportWriteAll hcore.toKeeps _) fun _ => ?_
  refine (Keeps.exportWriteAll hcore.toKeeps _).bind fun _ => ?_
  refine (Keeps.writeNewline hcore options).bind fun _ => ?_
  refine (exportElementsLoop_halts hstop (arrayBodyOffsets_inside hbody) ?_ _ _).bind fun _ => ?_
  · intro i hi c hat depth
    refine HaltsOnly.mono (hchild c depth) fun h => .child (.element ?_) h
    exact ⟨hkind, header, start, hbody, i, hi, hat⟩
  · exact (Keeps.writeNewline hcore options).bind fun _ =>
      (Keeps.writeIndent hcore options _).bind fun _ => Keeps.exportWriteAll hcore.toKeeps _

/-- What an export of a value can stop with, other than a failure. -/
theorem exportValue_halts (hstop : stop ≠ .failed) (hsort : Sorts core.sortWithCompare)
    (hsafe : stop = .fault → r.header.LayoutAccepted r.size ∧ r.header.Confined r.size)
    (hbad : ∀ offset, BadKey r offset → bad offset) (levels : Nat) (offset : UInt64)
    (depth : UInt32) : HaltsOnly stop (Halts r bad stop levels offset)
      (exportValue core options r levels offset depth) := by
  induction levels generalizing offset depth with
  | zero =>
    refine HaltsOnly.throw ?_
    rintro rfl
    exact .overflow offset
  | succ levels ih =>
    have hcore : core.KeepsJson (fun _ => True)
        (fun e _ => e = stop → Halts r bad stop (levels + 1) offset) := HaltsOnly.keepsJson hstop
    have hat : stop = .fault → Safe (kindAt r offset) := fun hfault =>
      kindAt_confined (hsafe hfault).1 (hsafe hfault).2.1 offset
    refine (HaltsOnly.fromReader hstop fun hfault hunsafe => ?_).bind_returns
      (fromReader_returns _) ?_
    · exact absurd (hat hfault) hunsafe
    intro kind hkind
    cases kind with
    | null => exact Keeps.exportWriteAll hcore.toKeeps _
    | false => exact Keeps.exportWriteAll hcore.toKeeps _
    | true => exact Keeps.exportWriteAll hcore.toKeeps _
    | int64 =>
      refine (HaltsOnly.fromReader hstop fun hfault hunsafe => ?_).bind fun _ =>
        Keeps.writeNumberInt64 hcore _
      exact absurd (scalarInt64At_safe (hat hfault)) hunsafe
    | uint64 =>
      refine (HaltsOnly.fromReader hstop fun hfault hunsafe => ?_).bind fun _ =>
        Keeps.writeNumberUint64 hcore _
      exact absurd (scalarUint64At_safe (hat hfault)) hunsafe
    | float64 =>
      refine (HaltsOnly.fromReader hstop fun hfault hunsafe => ?_).bind fun _ =>
        Keeps.writeNumberFloat64 hcore _
      exact absurd (scalarFloat64At_safe (hat hfault)) hunsafe
    | string =>
      refine (HaltsOnly.fromReader hstop fun hfault hunsafe => ?_).bind_returns
        (fromReader_returns _) fun range hrange => ?_
      · exact absurd (scalarStringAt_safe (hat hfault)) hunsafe
      · refine HaltsOnly.writeJsonString hstop options fun _ hnot => ?_
        exact absurd (scalarStringAt_inside hrange) hnot
    | block => exact exportBlock_halts hstop hsort (hbad offset) hkind ih depth
    | array => exact exportArray_halts hstop hkind ih depth

/-- An export stops at a root: its key is not a good one, or its value stops the export. -/
def RootHalts (r : Reader) (good : Entry → Prop) (bad : UInt64 → Prop) (stop : ExportStop)
    (levels : Nat) : Prop :=
  ∃ entry, RootEntry r entry ∧
    (stop = .fault ∧ ¬good entry ∨ Halts r bad stop levels entry.valueOffset)

theorem exportRoots_halts (hstop : stop ≠ .failed) (hsort : Sorts core.sortWithCompare)
    (hsafe : stop = .fault → r.header.LayoutAccepted r.size ∧ r.header.Confined r.size)
    (hroots : stop = .fault →
      r.header.rootIndexOffset.toNat + r.header.rootCount.toNat * 24 ≤ r.base.bytes.length)
    (hbad : ∀ offset, BadKey r offset → bad offset) (levels : Nat) :
    HaltsOnly stop (RootHalts r (KeyInside r) bad stop levels) (exportRoots core options r levels) := by
  have hcore : core.KeepsJson (fun _ => True)
      (fun e _ => e = stop → RootHalts r (KeyInside r) bad stop levels) :=
    HaltsOnly.keepsJson hstop
  refine .ite (fun _ => ?_) fun _ => ?_
  · exact (Keeps.exportWriteAll hcore.toKeeps _).bind fun _ => Keeps.writeNewline hcore options
  refine (Keeps.exportWriteAll hcore.toKeeps _).bind fun _ => ?_
  refine (Keeps.writeNewline hcore options).bind fun _ => ?_
  refine (HaltsOnly.scratchAlloc (HaltsOnly.throw fun h => absurd h.symm hstop) _).bind fun _ => ?_
  refine (HaltsOnly.fromReader hstop fun hfault hunsafe => ?_).bind_returns (fromReader_returns _) ?_
  · exact absurd (copyEntries_safe (hroots hfault)) hunsafe
  intro items hitems
  obtain ⟨hlisted, -⟩ := copyEntries_root hitems
  -- as in a block, but a key that leaves the file is one of the root index
  refine (arrangeEntries_halts ?_).bind_returns (arrangeEntries_perm hsort items) ?_
  · rintro hfault item hitem hnot
    obtain ⟨place, entry, hentry, rfl⟩ := hlisted item hitem
    exact ⟨entry, hentry, .inl ⟨hfault, fun hinside => hnot hinside.readable⟩⟩
  · intro arranged hperm
    refine (exportEntriesLoop_halts hstop ?_ _ _).bind fun _ => ?_
    · intro item hitem
      obtain ⟨place, entry, hentry, rfl⟩ := hlisted item (hperm.mem_iff.mp hitem)
      constructor
      · rintro hfault hnot
        exact ⟨entry, hentry, .inl ⟨hfault, fun hinside => hnot (keyInside_iff.mp hinside)⟩⟩
      · intro depth
        exact HaltsOnly.mono (exportValue_halts hstop hsort hsafe hbad levels _ depth) fun h =>
          ⟨entry, hentry, .inr h⟩
    · exact (Keeps.writeNewline hcore options).bind fun _ =>
        (Keeps.exportWriteAll hcore.toKeeps _).bind fun _ => Keeps.writeNewline hcore options

end

/-! ### Exports that return -/

theorem returns_fact {α : Type} {Q : Prop} {m : ExportM σ α} (h : Q) :
    Returns (fun _ => Q) m :=
  fun _ _ _ _ => h

/-- No chain from a node on has so many nodes behind the first. -/
def Bounded (r : Reader) (levels : Nat) (offset : UInt64) : Prop :=
  ∀ below : List UInt64, (offset :: below).IsChain (Child r) → below.length < levels

theorem Bounded.of_children {r : Reader} {levels : Nat} {offset : UInt64}
    (h : ∀ c, Child r offset c → Bounded r levels c) : Bounded r (levels + 1) offset := by
  intro below hchain
  cases below with
  | nil => exact Nat.succ_pos levels
  | cons c below =>
    obtain ⟨hchild, hrest⟩ := List.isChain_cons_cons.mp hchain
    exact Nat.succ_lt_succ (h c hchild below hrest)

/-- What is no container has nothing below it. -/
theorem Bounded.of_scalar {r : Reader} {levels : Nat} {offset : UInt64} {kind : Kind}
    (hkind : kindAt r offset = .ok kind) (hblock : kind ≠ .block) (harray : kind ≠ .array) :
    Bounded r (levels + 1) offset := by
  refine Bounded.of_children fun c hchild => ?_
  rcases hchild.container with h | h
  · rw [hkind] at h
    cases h
    exact absurd rfl hblock
  · rw [hkind] at h
    cases h
    exact absurd rfl harray

/-- The loop over a string returns when all its bytes are there. -/
theorem jsonStringLoop_returns {core : Core σ} {options : Option ExportOptions} {data : Bytes}
    {length index : Nat} (hindex : index ≤ data.length) :
    Returns (fun _ => length ≤ data.length) (jsonStringLoop core options data length index) := by
  fun_induction jsonStringLoop core options data length index with
  | case1 => exact .bind fun _ => .throw _
  | case2 => exact .throw _
  | case3 index hlt piece consumed hpiece ih =>
    have hconsumed := (jsonPiece_within hpiece).1
    rw [List.length_drop] at hconsumed
    exact .bind fun _ => ih (by omega)
  | case4 index hge => exact returns_fact (by omega)

theorem writeJsonString_returns {core : Core σ} {options : Option ExportOptions} {data : Bytes}
    {length : Nat} : Returns (fun _ => length ≤ data.length)
      (writeJsonString core options data length) :=
  .bind fun _ => (jsonStringLoop_returns (Nat.zero_le _)).first

/-- The keys of all entries of a node and of the nodes below it are in the file. -/
def KeysInside (r : Reader) (offset : UInt64) : Prop :=
  ∀ block entry, Relation.ReflTransGen (Child r) offset block → EntryOf r block entry →
    KeyInside r entry

theorem KeysInside.of_children {r : Reader} {offset : UInt64}
    (hkeys : ∀ entry, EntryOf r offset entry → KeyInside r entry)
    (hchildren : ∀ c, Child r offset c → KeysInside r c) : KeysInside r offset := by
  intro block entry hreach hentry
  rcases Relation.ReflTransGen.cases_head hreach with rfl | ⟨c, hchild, hrest⟩
  · exact hkeys entry hentry
  · exact hchildren c hchild block entry hrest hentry

/-- What an export that returns has been through below a node: all chains to their ends, and all
keys. -/
structure PassedThrough (r : Reader) (levels : Nat) (offset : UInt64) : Prop where
  bounded : Bounded r levels offset
  keys : KeysInside r offset

theorem PassedThrough.of_children {r : Reader} {levels : Nat} {offset : UInt64}
    (hkeys : ∀ entry, EntryOf r offset entry → KeyInside r entry)
    (hchildren : ∀ c, Child r offset c → PassedThrough r levels c) :
    PassedThrough r (levels + 1) offset :=
  ⟨.of_children fun c hchild => (hchildren c hchild).bounded,
    .of_children hkeys fun c hchild => (hchildren c hchild).keys⟩

section

variable {core : Core σ} {options : Option ExportOptions} {r : Reader} {Q : UInt64 → Prop}
  {child : UInt64 → UInt32 → ExportM σ Unit}
  (hchild : ∀ c depth, Returns (fun _ => Q c) (child c depth))

include hchild

/-- The loop over entries returns when each of their keys is there and each of their values has
been exported. -/
theorem exportEntriesLoop_returns (depth : UInt32) (first : Bool) (entries : List SortEntry) :
    Returns (fun _ => ∀ e ∈ entries,
        e.keyLength.toNat ≤ (r.base.from (e.keyPoolOffset + 4)).length ∧ Q e.valueOffset)
      (exportEntriesLoop core options r child depth first entries) := by
  induction entries generalizing first with
  | nil =>
    refine .pure ?_
    intro e he
    cases he
  | cons entry entries ih =>
    have hvalue : entry.keyLength.toNat ≤ (r.base.from (entry.keyPoolOffset + 4)).length →
        Returns (fun _ => ∀ e ∈ entry :: entries,
          e.keyLength.toNat ≤ (r.base.from (e.keyPoolOffset + 4)).length ∧ Q e.valueOffset) (do
            child entry.valueOffset depth
            exportEntriesLoop core options r child depth false entries) := by
      intro hkey
      refine (hchild _ depth).bind_of fun _ hfirst => ?_
      exact (ih false).mono fun _ hrest => List.forall_mem_cons.mpr ⟨⟨hkey, hfirst⟩, hrest⟩
    rw [exportEntriesLoop]
    refine .ite (fun _ => ?_) fun _ => ?_
    · exact .bind fun _ => .bind fun _ => .bind fun _ =>
        writeJsonString_returns.bind_of fun _ hkey =>
        .ite (fun _ => .bind fun _ => hvalue hkey) fun _ => .bind fun _ => hvalue hkey
    · exact .bind fun _ => writeJsonString_returns.bind_of fun _ hkey =>
        .ite (fun _ => .bind fun _ => hvalue hkey) fun _ => .bind fun _ => hvalue hkey

theorem exportElementsLoop_returns (depth : UInt32) (first : Bool) (count : Nat)
    (offset : UInt64) (hinside : offset.toNat + count * 8 ≤ r.base.bytes.length) :
    Returns (fun _ => ∀ i < count, ∀ c, HasAt r.base.bytes (offset.toNat + i * 8) (le64 c) → Q c)
      (exportElementsLoop core options r child depth first count offset) := by
  have hlength := r.base.length_lt
  have hwidth : arrayElementSize.toNat = 8 := rfl
  induction count generalizing first offset with
  | zero =>
    refine .pure ?_
    intro i hi
    omega
  | succ count ih =>
    have hnext : (offset + arrayElementSize).toNat = offset.toNat + 8 := by
      rw [UInt64.toNat_add, hwidth]
      omega
    have hvalue : Returns (fun _ => ∀ i < count + 1, ∀ c,
        HasAt r.base.bytes (offset.toNat + i * 8) (le64 c) → Q c) (do
          let valueOffset ← fromReader (loadU64 r.base offset)
          child valueOffset depth
          exportElementsLoop core options r child depth false count
            (offset + arrayElementSize)) := by
      refine (fromReader_returns _).bind_of fun c hc => (hchild c depth).bind_of fun _ hfirst => ?_
      refine (ih false _ (by rw [hnext]; omega)).mono fun _ hrest => ?_
      intro i hi c' hat
      cases i with
      | zero =>
        rw [Nat.zero_mul, Nat.add_zero] at hat
        rw [loadU64_of_hasAt hat] at hc
        cases hc
        exact hfirst
      | succ i =>
        rw [Nat.succ_mul, Nat.add_comm (i * 8), ← Nat.add_assoc, ← hnext] at hat
        exact hrest i (Nat.lt_of_succ_lt_succ hi) c' hat
    rw [exportElementsLoop]
    refine .ite (fun _ => ?_) fun _ => ?_
    · exact .bind fun _ => .bind fun _ => .bind fun _ => hvalue
    · exact .bind fun _ => hvalue

end

/-- What has no entries has no keys of its own. -/
theorem no_entries {r : Reader} {offset : UInt64} {kind : Kind} (hkind : kindAt r offset = .ok kind)
    (hblock : kind ≠ .block) (entry : Entry) : ¬EntryOf r offset entry := by
  rintro ⟨hkind', -⟩
  rw [hkind] at hkind'
  cases hkind'
  exact hblock rfl

/-- An export of a value that returns has been through all that is below it. -/
theorem exportValue_returns {core : Core σ} (hsort : Sorts core.sortWithCompare)
    (options : Option ExportOptions) (r : Reader) (levels : Nat) (offset : UInt64)
    (depth : UInt32) :
    Returns (fun _ => PassedThrough r levels offset)
      (exportValue core options r levels offset depth) := by
  induction levels generalizing offset depth with
  | zero => exact .throw _
  | succ levels ih =>
    refine (fromReader_returns _).bind_of fun kind hkind => ?_
    by_cases hblock : kind = .block
    · subst hblock
      refine (fromReader_returns _).bind_of ?_
      rintro ⟨header, start⟩ hbody
      refine .ite (fun hnone => ?_) fun _ => ?_
      · -- a block without entries
        have hempty : ∀ entry, ¬EntryOf r offset entry := by
          rintro entry ⟨-, header', start', hbody', i, hi, -⟩
          rw [hbody] at hbody'
          cases hbody'
          rw [hnone] at hi
          exact Nat.not_lt_zero i hi
        refine returns_fact (.of_children (fun entry hentry => absurd hentry (hempty entry)) ?_)
        intro c hchild
        obtain ⟨entry, hentry, -⟩ := hchild.of_block hkind
        exact absurd hentry (hempty entry)
      · refine .bind fun _ => .bind fun _ => .bind fun _ => ?_
        refine (fromReader_returns _).bind_of fun items hitems => ?_
        refine (arrangeEntries_perm hsort items).bind_of fun arranged hperm => ?_
        refine (exportEntriesLoop_returns ih _ _ _).bind_of fun _ hvalues => ?_
        have hentries := (copyEntries_block hkind hbody hitems).2
        refine returns_fact (.of_children ?_ ?_)
        · intro entry hentry
          obtain ⟨place, hitem⟩ := hentries entry hentry
          exact keyInside_iff.mpr (hvalues _ (hperm.mem_iff.mpr hitem)).1
        · intro c hchild
          -- what is below the block has been exported with one level less
          obtain ⟨entry, hentry, rfl⟩ := hchild.of_block hkind
          obtain ⟨place, hitem⟩ := hentries entry hentry
          exact (hvalues _ (hperm.mem_iff.mpr hitem)).2
    have hnokeys : ∀ entry, EntryOf r offset entry → KeyInside r entry :=
      fun entry hentry => absurd hentry (no_entries hkind hblock entry)
    by_cases harray : kind = .array
    · subst harray
      refine (fromReader_returns _).bind_of ?_
      rintro ⟨header, start⟩ hbody
      refine .ite (fun hnone => ?_) fun _ => ?_
      · -- an array without elements
        refine returns_fact (.of_children hnokeys fun c hchild => ?_)
        obtain ⟨-, header', start', hbody', i, hi, -⟩ := hchild.of_array hkind
        rw [hbody] at hbody'
        cases hbody'
        rw [hnone] at hi
        exact absurd hi (Nat.not_lt_zero i)
      · refine .bind fun _ => .bind fun _ => ?_
        refine (exportElementsLoop_returns ih _ _ _ _ (arrayBodyOffsets_inside hbody)).bind_of
          fun _ hvalues => ?_
        refine returns_fact (.of_children hnokeys fun c hchild => ?_)
        obtain ⟨-, header', start', hbody', i, hi, hat⟩ := hchild.of_array hkind
        rw [hbody] at hbody'
        cases hbody'
        exact hvalues i hi c hat
    · refine returns_fact (.of_children hnokeys fun c hchild => ?_)
      rcases hchild.container with h | h
      · rw [hkind] at h
        cases h
        exact absurd rfl hblock
      · rw [hkind] at h
        cases h
        exact absurd rfl harray

/-- An export that returns has been through the whole file. -/
theorem exportRoots_returns {core : Core σ} (hsort : Sorts core.sortWithCompare)
    (options : Option ExportOptions) (r : Reader) (levels : Nat) :
    Returns (fun _ => ∀ offset, IsRoot r offset → PassedThrough r levels offset)
      (exportRoots core options r levels) := by
  refine .ite (fun hnone => ?_) fun _ => ?_
  · refine returns_fact ?_
    rintro offset ⟨entry, ⟨i, hi, -⟩, -⟩
    rw [hnone] at hi
    exact absurd hi (Nat.not_lt_zero i)
  · refine .bind fun _ => .bind fun _ => .bind fun _ => ?_
    refine (fromReader_returns _).bind_of fun items hitems => ?_
    refine (arrangeEntries_perm hsort items).bind_of fun arranged hperm => ?_
    refine (exportEntriesLoop_returns (exportValue_returns hsort options r levels) _ _ _).bind_of
      fun _ hvalues => ?_
    refine returns_fact ?_
    rintro offset ⟨entry, hentry, rfl⟩
    obtain ⟨place, hitem⟩ := (copyEntries_root hitems).2 entry hentry
    exact (hvalues _ (hperm.mem_iff.mpr hitem)).2

end Hrbl
