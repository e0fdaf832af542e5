import Hrbl.Resealing

/-!
# The nodes of a verified file

What it takes for the graph of a file to be well formed, and what of it the verifier makes sure of:
nothing, for a file with a root.
-/

namespace Hrbl

open Lib Lib.Outcome

/-! ## Graphs that are well formed -/

section

variable (r : Reader)

/-- So many bytes at a place are in the nodes section. -/
def InNodesSection (place width : Nat) : Prop :=
  r.header.nodesOffset.toNat ≤ place ∧
    place + width ≤ r.header.nodesOffset.toNat + r.header.nodesSize.toNat

/-- A text and the length in front of it are in the strings section. -/
def InStringsSection (place length : UInt32) : Prop :=
  r.header.stringsOffset.toNat ≤ place.toNat ∧
    place.toNat + 4 + length.toNat ≤ r.header.stringsOffset.toNat + r.header.stringsSize.toNat

/-- What is behind the kind byte of a node at an offset is in order. -/
def BodyFormed (offset : UInt64) : Kind → Prop
  | .null | .false | .true => True
  | .int64 | .uint64 | .float64 => InNodesSection r (alignUpNat (offset.toNat + 1) 8) 8
  | .string =>
    let place := alignUpNat (offset.toNat + 1) 4
    InNodesSection r place 8 ∧ ∃ pool length : UInt32,
      HasAt r.base.bytes place (le32 pool ++ le32 length) ∧ InStringsSection r pool length
  | .block =>
    let place := alignUpNat (offset.toNat + 1) 8
    ∃ (count size : UInt32) (entries : List Entry), entries.length = count.toNat ∧
      InNodesSection r place (8 + entries.length * 24) ∧
      HasAt r.base.bytes place (le32 count ++ le32 size ++ entries.flatMap Entry.encode) ∧
      (∀ entry ∈ entries, InStringsSection r entry.keyPoolOffset entry.keyLength) ∧
      entries.Pairwise fun e e' => e.keyHash64 ≤ e'.keyHash64
  | .array =>
    let place := alignUpNat (offset.toNat + 1) 8
    ∃ (count size : UInt32) (elements : List UInt64), elements.length = count.toNat ∧
      InNodesSection r place (8 + elements.length * 8) ∧
      HasAt r.base.bytes place (le32 count ++ le32 size ++ elements.flatMap le64)

/-- A node has one of the nine kinds, and the body of its kind. -/
def NodeFormed (offset : UInt64) : Prop :=
  ∃ kind, kindAt r offset = .ok kind ∧ BodyFormed r offset kind

/-- All nodes that are reached from the root index are well formed, and none is below itself. -/
structure GraphFormed : Prop where
  node : ∀ root offset, IsRoot r root → Relation.ReflTransGen (Child r) root offset →
    NodeFormed r offset
  acyclic : ¬Cyclic (Child r) (IsRoot r)

variable {r}

/-- Without roots there is no graph. -/
theorem graphFormed_of_no_roots (h : r.header.rootCount = 0) : GraphFormed r := by
  have hnone : ∀ root, ¬IsRoot r root := by
    rintro root ⟨entry, ⟨i, hi, -⟩, -⟩
    rw [h] at hi
    exact Nat.not_lt_zero i hi
  constructor
  · intro root offset hroot
    exact absurd hroot (hnone root)
  · rintro ⟨root, -, hroot, -⟩
    exact hnone root hroot

end

/-! ## Files that the verifier does not tell apart -/

/-- Two files that differ in their nodes and in the checksum alone, with the nodes where the header
says. -/
def NodesApart (hash64 : Bytes → UInt64) (header : Header) (b b' : Buffer) : Prop :=
  ∃ (frame : Frame) (nodes nodes' : Bytes), frame.before.length = 96 ∧ frame.between.length = 24 ∧
    128 + frame.roots.length = header.nodesOffset.toNat ∧
    nodes.length = header.nodesSize.toNat ∧ nodes'.length = nodes.length ∧
    b.bytes = frame.file hash64 nodes ∧ b'.bytes = frame.file hash64 nodes'

/-- The number of roots is in front of the checksum. -/
theorem rootCount_header {b : Buffer} {before after : Bytes} (hbytes : b.bytes = before ++ after)
    (hlength : before.length = 96) : b.header.rootCount = u64At before 24 := by
  have htake : b.bytes.take 128 = before ++ after.take 32 := by
    rw [hbytes, List.take_append, hlength, List.take_of_length_le (by omega)]
  rw [Buffer.header, htake]
  change u64At (before ++ after.take 32) 24 = u64At before 24
  rw [u64At, u64At, List.drop_append_of_le_length (by omega),
    List.take_append_of_le_length (by rw [List.length_drop]; omega)]

theorem NodesApart.rootCount {hash64 : Bytes → UInt64} {header : Header} {b b' : Buffer}
    (h : NodesApart hash64 header b b') : b'.header.rootCount = b.header.rootCount := by
  obtain ⟨frame, nodes, nodes', hbefore, -, -, -, -, hbytes, hbytes'⟩ := h
  rw [Frame.file, List.append_assoc, List.append_assoc, List.append_assoc] at hbytes hbytes'
  rw [rootCount_header hbytes hbefore, rootCount_header hbytes' hbefore]

section

variable {hash64 : Bytes → UInt64} {b : Buffer} {r : Reader}
  (hverified : verifyBuffer hash64 b = .ok .ok) (hopened : openBuffer true b = .ok r)

include hverified hopened

/-- A root of a verified file, which is one of its nodes. -/
theorem verified_root (hroots : r.header.rootCount ≠ 0) : ∃ root, IsRoot r root ∧
    r.header.nodesOffset ≤ root ∧ root < r.header.stringsOffset := by
  obtain ⟨rfl, henvelope, -, -, entries, hheld⟩ := verified_opened hverified hopened
  cases entries with
  | nil => exact absurd (UInt64.toNat_inj.mp hheld.count_eq.symm) hroots
  | cons entry entries =>
    have hstart : r.header.rootIndexOffset.toNat = 128 :=
      congrArg UInt64.toNat henvelope.layout.rootIndexOffset
    have hcount := hheld.count_eq
    have hat := hheld.held
    have hsections := hheld.inSections entry List.mem_cons_self
    rw [List.flatMap_cons, hasAt_append] at hat
    rw [List.length_cons] at hcount
    refine ⟨entry.valueOffset, ⟨entry, ⟨0, by omega, ?_⟩, rfl⟩, hsections.value_ge,
      hsections.value_lt⟩
    rw [hstart]
    exact hat.1

/-- The sums of a verified file with a root do not wrap. -/
theorem verified_sumsFit (hroots : r.header.rootCount ≠ 0) : r.header.SumsFit := by
  -- a root is at or behind nodes_offset and below strings_offset; a sum that wraps leaves no room
  obtain ⟨root, -, hge, hlt⟩ := verified_root hverified hopened hroots
  obtain ⟨-, hlayout, -, hindex, -⟩ := verified_exportable hverified hopened
  obtain ⟨rfl, henvelope, -, hpool, -⟩ := verified_opened hverified hopened
  have hsize := henvelope.size_le
  have hlength := r.base.length_lt
  have hle : (160 : UInt64) ≤ r.base.size := by
    rw [UInt64.le_iff_toNat_le, Buffer.toNat_size]
    exact hsize
  have hstart : r.header.rootIndexOffset.toNat = 128 := congrArg UInt64.toNat hlayout.rootIndexOffset
  have hstrings := UInt64.le_iff_toNat_le.mp (pool_le_footer hsize hlayout hpool)
  have hnodesSize := r.header.nodesSize.toNat_lt
  have hstringsSize := r.header.stringsSize.toNat_lt
  obtain ⟨hproduct, hnodes, hpoolStart, hfooter, hend⟩ := hlayout.toNat hle
  rw [Reader.size, Buffer.toNat_size] at hend
  rw [UInt64.le_iff_toNat_le] at hge
  rw [UInt64.lt_iff_toNat_lt] at hlt
  unfold Header.SumsFit
  omega

/-- The nodes of a verified file with a root can be exchanged for bytes that are of no kind. -/
theorem exists_nodesApart (hroots : r.header.rootCount ≠ 0) : ∃ (b' : Buffer) (r' : Reader),
    NodesApart hash64 r.header b b' ∧ verifyBuffer hash64 b' = .ok .ok ∧
      openBuffer true b' = .ok r' ∧ ¬GraphFormed r' := by
  -- all bytes of the nodes are set to one that is no kind byte
  have hsums := verified_sumsFit hverified hopened hroots
  obtain ⟨-, henvelope⟩ := openBuffer_eq_ok.mp hopened
  obtain ⟨footer, roots, pool, nodes, hnodes, hplace, hbytes, hothers⟩ :=
    verified_framed hverified hopened hsums
  have hlength : (List.replicate nodes.length (0xFF : UInt8)).length = nodes.length :=
    List.length_replicate
  obtain ⟨b', hbytes'⟩ : ∃ b' : Buffer, b'.bytes =
      (frameOf r.header footer roots pool).file hash64 (List.replicate nodes.length 0xFF) := by
    refine ⟨⟨_, ?_⟩, rfl⟩
    have hlt := b.length_lt
    rw [hbytes] at hlt
    simp only [Frame.file, List.length_append, length_le64, List.length_replicate] at hlt ⊢
    exact hlt
  obtain ⟨hverified', checksum, hopened', hat⟩ := hothers _ b' hlength hbytes'
  refine ⟨b', _, ⟨_, nodes, _, Header.length_front _, List.length_ofFn, hplace, hnodes, hlength,
    hbytes, hbytes'⟩, hverified', hopened', ?_⟩
  intro hformed
  -- the first root is of no kind
  obtain ⟨root, hroot, hge, hlt⟩ := verified_root hverified' hopened' hroots
  obtain ⟨kind, hkind, -⟩ := hformed.node root root hroot .refl
  replace hge : r.header.nodesOffset ≤ root := hge
  replace hlt : root < r.header.stringsOffset := hlt
  have hend := nodes_end henvelope hsums
  have hplace' : r.header.nodesOffset + UInt64.ofNat (root - r.header.nodesOffset).toNat = root := by
    rw [UInt64.ofNat_toNat, UInt64.add_comm, UInt64.sub_add_cancel]
  have hbyte : (List.replicate nodes.length (0xFF : UInt8))[(root - r.header.nodesOffset).toNat]? =
      some 0xFF := by
    refine List.getElem?_replicate_of_lt ?_
    have hlt' : root.toNat < r.header.nodesOffset.toNat + r.header.nodesSize.toNat := by
      rw [← hend, ← henvelope.layout.stringsOffset]
      exact UInt64.lt_iff_toNat_lt.mp hlt
    have hge' := UInt64.le_iff_toNat_le.mp hge
    rw [UInt64.toNat_sub_of_le _ _ hge, hnodes]
    omega
  have hnone := kindAt_nodes (r := ⟨b', { r.header with checksumXxh3 := checksum }⟩) hat
    (by rw [hlength, hnodes]; exact hend.symm) hbyte
  rw [hplace', hkind] at hnone
  cases hnone

end

/-- A verified file without roots has a graph that is well formed, and of the files that differ from
a verified one in their nodes and in the checksum alone, all that the verifier accepts have one
exactly when there is no root. -/
theorem verified_graphFormed_iff {hash64 : Bytes → UInt64} {b : Buffer} {r : Reader}
    (hverified : verifyBuffer hash64 b = .ok .ok) (hopened : openBuffer true b = .ok r) :
    (r.header.rootCount = 0 → GraphFormed r) ∧
      ((∀ (b' : Buffer) (r' : Reader), NodesApart hash64 r.header b b' →
        verifyBuffer hash64 b' = .ok .ok → openBuffer true b' = .ok r' → GraphFormed r') ↔
        r.header.rootCount = 0) := by
  refine ⟨graphFormed_of_no_roots, ?_, ?_⟩
  · intro hformed
    by_contra hroots
    obtain ⟨b', r', hapart, hverified', hopened', hnot⟩ :=
      exists_nodesApart hverified hopened hroots
    exact hnot (hformed b' r' hapart hverified' hopened')
  · intro hroots b' r' hapart _ hopened'
    obtain ⟨rfl, henvelope⟩ := openBuffer_eq_ok.mp hopened
    obtain ⟨rfl, henvelope'⟩ := openBuffer_eq_ok.mp hopened'
    refine graphFormed_of_no_roots ?_
    rw [henvelope'.eq_header, hapart.rootCount, ← henvelope.eq_header, hroots]

/-! ## A block with an integer -/

section

variable {hash64 : Bytes → UInt64} {b : Buffer}
  (hbytes : b.bytes = (nested hash64 208).file hash64)

include hbytes

/-- The graph of the file is well formed. -/
theorem nested_graphFormed : GraphFormed ⟨b, (nested hash64 208).header hash64⟩ := by
  obtain ⟨-, hvalue, hblock, -, -⟩ := nested_nodes hbytes
  obtain ⟨-, hnodes, -⟩ := Parts.hasAt hbytes
  have hnodesAt : HasAt b.bytes 152 (nestedNodes 208) := hnodes
  have hbody : HasAt b.bytes 176 (le32 1 ++ le32 24 ++ Entry.encode ⟨0, 208, 1, 152⟩) := by
    obtain ⟨-, hlone⟩ := hasAt_append.mp hnodesAt
    obtain ⟨hbefore, hentry⟩ := hasAt_append.mp hlone
    exact hasAt_append.mpr ⟨(hasAt_append.mp hbefore).2, hentry⟩
  have hsection : ∀ place width, 152 ≤ place → place + width ≤ 208 →
      InNodesSection ⟨b, (nested hash64 208).header hash64⟩ place width := by
    intro place width hge hle
    exact ⟨hge, hle⟩
  constructor
  · intro root offset hroot hreach
    rcases (nested_reached hbytes hroot hreach).1 with rfl | rfl
    · refine ⟨.block, hblock, 1, 24, [⟨0, 208, 1, 152⟩], rfl, hsection _ _ (by decide) (by decide),
        ?_, ?_, List.pairwise_singleton _ _⟩
      · exact hbody
      · intro entry hentry
        have hpool : ((nested hash64 208).header hash64).stringsOffset.toNat = 208 ∧
            ((nested hash64 208).header hash64).stringsSize.toNat = 8 := by
          constructor
          · change (UInt64.ofNat (nested hash64 208).stringsStart).toNat = 208
            rw [nested_stringsStart]
            rfl
          · change (UInt64.ofNat (poolBytes [[0x61]]).length).toNat = 8
            decide
        rw [List.mem_singleton.mp hentry, InStringsSection, hpool.1, hpool.2]
        decide
    · exact ⟨.int64, hvalue, hsection _ _ (by decide) (by decide)⟩
  · exact nested_acyclic hbytes

end

/-- A file whose graph is well formed, and one with other nodes that the verifier accepts as well
and whose graph is not. -/
theorem verified_graphFormed_iff_nested : ∃ (b b' : Buffer) (r r' : Reader),
    verifyBuffer (fun _ => 0) b = .ok .ok ∧ openBuffer true b = .ok r ∧ GraphFormed r ∧
      NodesApart (fun _ => 0) r.header b b' ∧ verifyBuffer (fun _ => 0) b' = .ok .ok ∧
      openBuffer true b' = .ok r' ∧ ¬GraphFormed r' := by
  obtain ⟨b, hbytes⟩ : ∃ b : Buffer, b.bytes = (nested (fun _ => 0) 208).file fun _ => 0 :=
    (nested_sound (fun _ => 0) 208).exists_buffer
  have hverified := (nested_sound (fun _ => 0) 208).verified hbytes
  obtain ⟨-, hiff⟩ := verified_graphFormed_iff hverified (Parts.opened hbytes)
  have hroots : ¬((nested (fun _ => 0) 208).header fun _ => 0).rootCount = 0 := by decide
  rw [← hiff] at hroots
  push Not at hroots
  obtain ⟨b', r', hapart, hverified', hopened', hnot⟩ := hroots
  exact ⟨b, b', _, r', hverified, Parts.opened hbytes, nested_graphFormed hbytes, hapart, hverified',
    hopened', hnot⟩

/-- With any hash there is a file that the verifier accepts and in which an array is in itself. -/
theorem verified_graph_goes_around : ¬∃ hash64 : Bytes → UInt64, ∀ (b : Buffer) (r : Reader),
    verifyBuffer hash64 b = .ok .ok → openBuffer true b = .ok r → GraphFormed r := by
  rintro ⟨hash64, hformed⟩
  obtain ⟨b, hbytes⟩ : ∃ b : Buffer, b.bytes = (paired hash64 159).file hash64 :=
    (paired_sound hash64 159).exists_buffer
  exact (hformed b _ ((paired_sound hash64 159).verified hbytes) (Parts.opened hbytes)).acyclic
    (paired_cyclic hbytes)

end Hrbl
