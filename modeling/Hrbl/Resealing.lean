import Hrbl.Confinement
import Hrbl.Tampering

/-!
# Files with other nodes

The verifier takes the checksum of the nodes and looks at nothing else of them. In a file that it
accepts the nodes may be exchanged for any bytes, with the checksum of what the payload then is, and
it accepts the file again.
-/

namespace Hrbl

open Lib Lib.Outcome

/-! ## Frames -/

/-- What is around the nodes of a file, but for the checksum: the header up to it and behind it, the
root index, the strings pool and the rest of the footer. -/
structure Frame where
  before : Bytes
  between : Bytes
  roots : Bytes
  pool : Bytes
  after : Bytes

/-- The file of a frame with some nodes, and with the checksum of its payload. -/
def Frame.file (hash64 : Bytes → UInt64) (frame : Frame) (nodes : Bytes) : Bytes :=
  let checksum := le64 (hash64 (frame.roots ++ nodes ++ frame.pool))
  frame.before ++ checksum ++ frame.between ++ (frame.roots ++ nodes ++ frame.pool) ++
    (checksum ++ frame.after)

/-- The frame of a header, the sections around the nodes and a footer. -/
def frameOf (header : Header) (footer : Footer) (roots pool : Bytes) : Frame where
  before := header.front
  between := List.ofFn header.reserved
  roots := roots
  pool := pool
  after := le64 footer.fileSize ++ le32 footer.magicEnd ++ List.ofFn footer.reserved

theorem Footer.encode_eq (f : Footer) : f.encode = le64 f.checksumXxh3 ++
    (le64 f.fileSize ++ le32 f.magicEnd ++ List.ofFn f.reserved) := by
  rw [Footer.encode, List.append_assoc, List.append_assoc, List.append_assoc]

theorem frameOf_file (hash64 : Bytes → UInt64) (header : Header) (footer : Footer)
    (roots pool nodes : Bytes) : (frameOf header footer roots pool).file hash64 nodes =
      { header with checksumXxh3 := hash64 (roots ++ nodes ++ pool) : Header }.encode ++
        (roots ++ nodes ++ pool) ++
        { footer with checksumXxh3 := hash64 (roots ++ nodes ++ pool) : Footer }.encode := by
  rw [Footer.encode_eq]
  rfl

/-- The fields of a footer are its bytes. -/
theorem Footer.encode_decode {raw : List UInt8} (h : raw.length = 32) :
    (Footer.decode raw).encode = raw := by
  have hreserved : List.ofFn (fun i : Fin 12 => raw.getD (20 + i) 0) = raw.drop 20 := by
    apply List.ext_getElem
    · rw [List.length_ofFn, List.length_drop, h]
    · intro i h₁ h₂
      rw [List.length_ofFn] at h₁
      rw [List.getElem_ofFn, List.getElem_drop, List.getD_eq_getElem?_getD,
        List.getElem?_eq_getElem (by omega), Option.getD_some]
  have hsplit : ∀ i n, (raw.drop i).take n ++ raw.drop (i + n) = raw.drop i := fun i n => by
    rw [← List.drop_drop, List.take_append_drop]
  rw [Footer.encode, Footer.decode]
  simp only [hreserved]
  rw [le64_u64At (by omega), le64_u64At (by omega), le32_u32At (by omega)]
  simp only [List.append_assoc]
  rw [hsplit 16 4, hsplit 8 8, hsplit 0 8, List.drop_zero]

/-! ## Sections -/

section

variable {hash64 : Bytes → UInt64} {b : Buffer} {header : Header}

/-- A file whose sums do not wrap is a header, three sections and a footer. -/
theorem Enveloped.sections (h : Enveloped b header) (hsums : header.SumsFit) :
    ∃ (roots nodes pool : Bytes) (footer : Footer),
      roots.length = header.rootCount.toNat * 24 ∧ nodes.length = header.nodesSize.toNat ∧
      pool.length = header.stringsSize.toNat ∧
      b.bytes = header.encode ++ (roots ++ nodes ++ pool) ++ footer.encode ∧
      footer.magicEnd = magicNumber ∧ footer.fileSize = header.fileSize ∧
      footer.checksumXxh3 = header.checksumXxh3 := by
  have hsize := h.size_le
  have hlayout := h.layout
  have hle : (160 : UInt64) ≤ b.size := by
    rw [UInt64.le_iff_toNat_le, Buffer.toNat_size]
    exact hsize
  obtain ⟨hroots, hnodes, hstrings, hfooter, hend, -⟩ :=
    (hlayout.sectionsTile_iff hle).mpr hsums
  rw [Buffer.toNat_size] at hend
  -- the sections follow on each other, so the file is put together from its parts again
  have hsplit : ∀ i n, (b.bytes.drop i).take n ++ b.bytes.drop (i + n) = b.bytes.drop i := by
    intro i n
    rw [← List.drop_drop, List.take_append_drop]
  have hpart : ∀ i n, i + n ≤ b.bytes.length → ((b.bytes.drop i).take n).length = n := by
    intro i n hle
    rw [List.length_take, List.length_drop]
    omega
  obtain ⟨footer, hload, hmagic, hfile, hsum⟩ := h.footer
  rw [loadFooter_ok hlayout hsize] at hload
  refine ⟨(b.bytes.drop 128).take (header.rootCount.toNat * 24),
    (b.bytes.drop header.nodesOffset.toNat).take header.nodesSize.toNat,
    (b.bytes.drop header.stringsOffset.toNat).take header.stringsSize.toNat, footer,
    hpart _ _ (by omega), hpart _ _ (by omega), hpart _ _ (by omega), ?_, hmagic, hfile, hsum⟩
  cases hload
  have hheader : header.encode = b.bytes.take 128 := by
    rw [h.eq_header, Buffer.header, Header.encode_decode]
    rw [List.length_take]
    omega
  rw [hheader, Footer.encode_decode (hpart _ _ (by omega)), List.append_assoc, List.append_assoc,
    List.append_assoc]
  have hlast : (b.bytes.drop header.footerOffset.toNat).take 32 =
      b.bytes.drop header.footerOffset.toNat :=
    List.take_of_length_le (by rw [List.length_drop]; omega)
  rw [hlast, ← hfooter, hsplit, ← hstrings, hsplit, ← hnodes, hroots, Nat.mul_comm 24, hsplit,
    List.take_append_drop]

end

/-- There is one text of a length at a place. -/
theorem text_unique {file text text' : Bytes} {offset : Nat} (h : HasAt file offset text)
    (h' : HasAt file offset text') (hlength : text.length = text'.length) : text = text' := by
  obtain ⟨rest, hrest⟩ := h
  obtain ⟨rest', hrest'⟩ := h'
  exact (List.append_inj (hrest.trans hrest'.symm) hlength).1

/-- The kind of a node is that of the byte in the nodes section. -/
theorem kindAt_nodes {r : Reader} {nodes : Bytes}
    (hnodes : HasAt r.base.bytes r.header.nodesOffset.toNat nodes)
    (hend : r.header.nodesOffset.toNat + nodes.length =
      (r.header.nodesOffset + r.header.nodesSize).toNat) {i : Nat} {byte : UInt8}
    (hbyte : nodes[i]? = some byte) :
    kindAt r (r.header.nodesOffset + UInt64.ofNat i) = (Kind.ofByte byte).elim .no .ok := by
  have hi : i < nodes.length := (List.getElem?_eq_some_iff.mp hbyte).1
  have hroom := (r.header.nodesOffset + r.header.nodesSize).toNat_lt
  have hindex : (UInt64.ofNat i).toNat = i := toNat_ofNat_of_lt64 (by omega)
  have hplace : (r.header.nodesOffset + UInt64.ofNat i).toNat = r.header.nodesOffset.toNat + i := by
    rw [UInt64.toNat_add, hindex]
    omega
  have hat : HasAt r.base.bytes (r.header.nodesOffset + UInt64.ofNat i).toNat [byte] := by
    have hget := hasAt_iff_getElem?.mp hnodes i hi
    refine hasAt_iff_getElem?.mpr fun j hj => ?_
    obtain rfl : j = 0 := Nat.lt_one_iff.mp hj
    rw [hplace, Nat.add_zero, hget, hbyte]
    rfl
  rw [kindAt, if_neg, loadByte_eq_ok.mpr hat, ok_bind]
  · cases Kind.ofByte byte with
    | none => rfl
    | some kind => rfl
  · rw [not_or, UInt64.lt_iff_toNat_lt, ge_iff_le, UInt64.le_iff_toNat_le, hplace]
    constructor
    · omega
    · omega

/-- A verified file is a frame with its nodes, and the verifier accepts every file of the frame. -/
theorem verified_framed {hash64 : Bytes → UInt64} {b : Buffer} {r : Reader}
    (hverified : verifyBuffer hash64 b = .ok .ok) (hopened : openBuffer true b = .ok r)
    (hsums : r.header.SumsFit) :
    ∃ (footer : Footer) (roots pool nodes : Bytes), nodes.length = r.header.nodesSize.toNat ∧
      128 + roots.length = r.header.nodesOffset.toNat ∧
      b.bytes = (frameOf r.header footer roots pool).file hash64 nodes ∧
      ∀ (nodes' : Bytes) (b' : Buffer), nodes'.length = nodes.length →
        b'.bytes = (frameOf r.header footer roots pool).file hash64 nodes' →
        verifyBuffer hash64 b' = .ok .ok ∧ ∃ checksum,
          openBuffer true b' = .ok ⟨b', { r.header with checksumXxh3 := checksum }⟩ ∧
          HasAt b'.bytes r.header.nodesOffset.toNat nodes' := by
  obtain ⟨rfl, henvelope, ⟨payload, hpayload, hchecksum⟩, ⟨strings, hpool⟩, entries, hroots⟩ :=
    verified_opened hverified hopened
  obtain ⟨roots, nodes, pool, footer, hrootsLength, hnodesLength, hpoolLength, hbytes, hmagic,
    hfile, hsum⟩ := henvelope.sections hsums
  have hsealed : Sealed r.base r.header (roots ++ nodes ++ pool) :=
    ⟨henvelope.layout, footer, hbytes, hmagic, hfile, hsum⟩
  have hhash : hash64 (roots ++ nodes ++ pool) = r.header.checksumXxh3 := by
    rw [hsealed.load_payload] at hpayload
    cases hpayload
    exact hchecksum
  have hle : (160 : UInt64) ≤ r.base.size := by
    rw [UInt64.le_iff_toNat_le, Buffer.toNat_size]
    exact henvelope.size_le
  obtain ⟨hindex, hstart, hstrings, hfooter, hend, -⟩ :=
    (henvelope.layout.sectionsTile_iff hle).mpr hsums
  -- the root index and the pool are those that the verifier has found
  obtain ⟨⟨hrootsAt, -⟩, hpoolAt⟩ := And.imp_left hasAt_append.mp (hasAt_append.mp hsealed.hasAt)
  rw [List.length_append, hrootsLength, hnodesLength, ← Nat.add_assoc] at hpoolAt
  have hrootsEq : roots = entries.flatMap Entry.encode :=
    text_unique hrootsAt hroots.held (by rw [length_flatMap_encode, hroots.count_eq, hrootsLength])
  have hpoolEq : pool = poolBytes strings := by
    refine text_unique hpoolAt ?_ (by rw [hpool.size_eq, hpoolLength])
    have hplace : 128 + r.header.rootCount.toNat * 24 + r.header.nodesSize.toNat =
        r.header.stringsOffset.toNat := by omega
    rw [hplace]
    exact hpool.held
  refine ⟨footer, roots, pool, nodes, hnodesLength, by omega, ?_, ?_⟩
  · rw [frameOf_file, hhash, hbytes]
    have hheader : { r.header with checksumXxh3 := r.header.checksumXxh3 : Header } = r.header := rfl
    have hfooterSame : { footer with checksumXxh3 := r.header.checksumXxh3 : Footer } = footer := by
      rw [← hsum]
    rw [hheader, hfooterSame]
  · intro nodes' b' hlength hbytes'
    rw [frameOf_file] at hbytes'
    generalize hchecksum' : hash64 (roots ++ nodes' ++ pool) = checksum at hbytes'
    have hsize : b'.size = r.base.size := by
      have hlengths := congrArg List.length hbytes'
      have hlengths' := congrArg List.length hbytes
      simp only [List.length_append, Header.length_encode, Footer.length_encode] at hlengths hlengths'
      rw [Buffer.size, Buffer.size, hlengths, hlengths', hlength]
    have hlayout' : ({ r.header with checksumXxh3 := checksum } : Header).LayoutAccepted b'.size := by
      rw [hsize]
      exact { henvelope.layout with }
    have hsealed' : Sealed b' { r.header with checksumXxh3 := checksum }
        (roots ++ nodes' ++ pool) := ⟨hlayout', _, hbytes', hmagic, hfile, rfl⟩
    obtain ⟨⟨hrootsAt', hnodesAt'⟩, hpoolAt'⟩ :=
      And.imp_left hasAt_append.mp (hasAt_append.mp hsealed'.hasAt)
    rw [List.length_append, hrootsLength, hlength, hnodesLength, ← Nat.add_assoc] at hpoolAt'
    rw [hrootsLength] at hnodesAt'
    have hpool' : PoolHeld b' { r.header with checksumXxh3 := checksum } strings := by
      refine ⟨hpool.utf8, hpool.length_le, ?_, hpool.size_eq, hpool.count_eq⟩
      have hplace : 128 + r.header.rootCount.toNat * 24 + r.header.nodesSize.toNat =
          r.header.stringsOffset.toNat := by omega
      rwa [hpoolEq, hplace] at hpoolAt'
    have hroots' : RootsHeld b' { r.header with checksumXxh3 := checksum } entries := by
      refine ⟨hrootsEq ▸ hrootsAt', hroots.count_eq, hroots.sorted, ?_⟩
      intro entry hentry
      exact { hroots.inSections entry hentry with }
    refine ⟨verifyBuffer_eq_ok.mpr ⟨_, hsealed'.enveloped, ⟨_, hsealed'.load_payload, hchecksum'⟩,
      ⟨strings, hpool'⟩, entries, hroots'⟩, checksum,
      openBuffer_eq_ok.mpr ⟨rfl, hsealed'.enveloped⟩, ?_⟩
    have hplace : 128 + r.header.rootCount.toNat * 24 = r.header.nodesOffset.toNat := by omega
    rwa [hplace] at hnodesAt'

/-- The nodes section ends at the sum of its offset and its size. -/
theorem nodes_end {b : Buffer} {header : Header} (henvelope : Enveloped b header)
    (hsums : header.SumsFit) : (header.nodesOffset + header.nodesSize).toNat =
      header.nodesOffset.toNat + header.nodesSize.toNat := by
  have hle : (160 : UInt64) ≤ b.size := by
    rw [UInt64.le_iff_toNat_le, Buffer.toNat_size]
    exact henvelope.size_le
  obtain ⟨-, -, hstrings, -, -, -⟩ := (henvelope.layout.sectionsTile_iff hle).mpr hsums
  have hroom := header.stringsOffset.toNat_lt
  rw [UInt64.toNat_add]
  omega

/-- The nodes of a verified file may be any bytes. The file is a frame with its nodes, and with any
others in the same place the verifier accepts it and the reader finds there what the bytes are. -/
theorem verifier_skips_nodes {hash64 : Bytes → UInt64} {b : Buffer} {r : Reader}
    (hverified : verifyBuffer hash64 b = .ok .ok) (hopened : openBuffer true b = .ok r)
    (hsums : r.header.SumsFit) :
    ∃ (frame : Frame) (nodes : Bytes), nodes.length = r.header.nodesSize.toNat ∧
      frame.before.length + 8 + frame.between.length + frame.roots.length =
        r.header.nodesOffset.toNat ∧
      b.bytes = frame.file hash64 nodes ∧
      ∀ (nodes' : Bytes) (b' : Buffer), nodes'.length = nodes.length →
        b'.bytes = frame.file hash64 nodes' → verifyBuffer hash64 b' = .ok .ok ∧
          ∃ r', openBuffer true b' = .ok r' ∧ ∀ i byte, nodes'[i]? = some byte →
            kindAt r' (r.header.nodesOffset + UInt64.ofNat i) =
              (Kind.ofByte byte).elim .no .ok := by
  obtain ⟨-, henvelope⟩ := openBuffer_eq_ok.mp hopened
  obtain ⟨footer, roots, pool, nodes, hnodes, hplace, hbytes, hothers⟩ :=
    verified_framed hverified hopened hsums
  refine ⟨frameOf r.header footer roots pool, nodes, hnodes, ?_, hbytes, ?_⟩
  · change r.header.front.length + 8 + (List.ofFn r.header.reserved).length + roots.length = _
    rw [Header.length_front, List.length_ofFn]
    omega
  · intro nodes' b' hlength hbytes'
    obtain ⟨hverified', checksum, hopened', hat⟩ := hothers nodes' b' hlength hbytes'
    refine ⟨hverified', _, hopened', ?_⟩
    intro i byte hbyte
    refine kindAt_nodes (r := ⟨b', { r.header with checksumXxh3 := checksum }⟩) hat ?_ hbyte
    rw [hlength, hnodes]
    exact (nodes_end henvelope hsums).symm

/-- The nodes of the file with a nested block may be any 56 bytes; the reader opens the file with
them and finds the kinds that they stand for. -/
theorem verifier_skips_nodes_nested : ∃ (b : Buffer) (frame : Frame) (nodes : Bytes),
    verifyBuffer (fun _ => 0) b = .ok .ok ∧ nodes.length = 56 ∧
      b.bytes = frame.file (fun _ => 0) nodes ∧ ∀ (nodes' : Bytes) (b' : Buffer),
        nodes'.length = 56 → b'.bytes = frame.file (fun _ => 0) nodes' →
          verifyBuffer (fun _ => 0) b' = .ok .ok ∧
            ∃ r', openBuffer true b' = .ok r' ∧ ∀ i byte, nodes'[i]? = some byte →
              kindAt r' (152 + UInt64.ofNat i) = (Kind.ofByte byte).elim .no .ok := by
  obtain ⟨b, hbytes⟩ : ∃ b : Buffer, b.bytes = (nested (fun _ => 0) 208).file fun _ => 0 :=
    (nested_sound (fun _ => 0) 208).exists_buffer
  have hverified := (nested_sound (fun _ => 0) 208).verified hbytes
  have hsums : ((nested (fun _ => 0) 208).header fun _ => 0).SumsFit := by decide +kernel
  have hsize : ((nested (fun _ => 0) 208).header fun _ => 0).nodesSize.toNat = 56 := by
    decide +kernel
  obtain ⟨frame, nodes, hnodes, -, hfile, hothers⟩ :=
    verifier_skips_nodes hverified (Parts.opened hbytes) hsums
  have hlength : nodes.length = 56 := hnodes.trans hsize
  refine ⟨b, frame, nodes, hverified, hlength, hfile, ?_⟩
  intro nodes' b' hlength' hfile'
  exact hothers nodes' b' (hlength'.trans hlength.symm) hfile'

end Hrbl
