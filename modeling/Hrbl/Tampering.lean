import Hrbl.RootScan

/-!
# Single bytes of the envelope

What happens to a file that verifies when one byte of its header, or of the checked fields of
its footer, is replaced. The header is not under the checksum: its fields are tied to one
another, to the size and to the footer, so that each of them follows from the others. The one
field that is tied to the payload only is `strings_count`, which the scan of the strings
section compares with what it counted.
-/

namespace Hrbl

open Lib Lib.Outcome

/-- The buffer with the byte at `p` replaced. -/
def Buffer.replace (b : Buffer) (p : Nat) (x : UInt8) : Buffer where
  bytes := b.bytes.set p x
  length_lt := by
    rw [List.length_set]
    exact b.length_lt

@[simp] theorem Buffer.length_replace (b : Buffer) (p : Nat) (x : UInt8) :
    (b.replace p x).bytes.length = b.bytes.length := List.length_set

@[simp] theorem Buffer.size_replace (b : Buffer) (p : Nat) (x : UInt8) :
    (b.replace p x).size = b.size := by
  rw [Buffer.size, Buffer.length_replace, Buffer.size]

/-! ## Fields and bytes -/

/-- A part of a byte string that does not hold the replaced byte. -/
theorem part_set {raw : List UInt8} {p i n : Nat} {x : UInt8} (h : p < i ∨ i + n ≤ p) :
    ((raw.set p x).drop i).take n = (raw.drop i).take n := by
  rcases h with hbefore | hafter
  · rw [List.drop_set_of_lt hbefore]
  · rw [List.take_drop, List.take_drop, List.take_set_of_le hafter]

theorem u16At_set {raw : List UInt8} {p i : Nat} {x : UInt8} (h : p < i ∨ i + 2 ≤ p) :
    u16At (raw.set p x) i = u16At raw i := by
  rw [u16At, part_set h, u16At]

theorem u32At_set {raw : List UInt8} {p i : Nat} {x : UInt8} (h : p < i ∨ i + 4 ≤ p) :
    u32At (raw.set p x) i = u32At raw i := by
  rw [u32At, part_set h, u32At]

theorem u64At_set {raw : List UInt8} {p i : Nat} {x : UInt8} (h : p < i ∨ i + 8 ≤ p) :
    u64At (raw.set p x) i = u64At raw i := by
  rw [u64At, part_set h, u64At]

theorem le16_u16At {raw : List UInt8} {i : Nat} (h : i + 2 ≤ raw.length) :
    le16 (u16At raw i) = (raw.drop i).take 2 := by
  have hlen : ((raw.drop i).take 2).length = 2 := by
    rw [List.length_take, List.length_drop]
    omega
  have hlt := leNat_lt ((raw.drop i).take 2)
  rw [hlen] at hlt
  rw [u16At, le16, UInt16.toNat_ofNat', Nat.mod_eq_of_lt (by omega)]
  have hbytes := leBytes_leNat ((raw.drop i).take 2)
  rwa [hlen] at hbytes

/-- The fields of a header are its bytes. -/
theorem Header.encode_decode {raw : List UInt8} (h : raw.length = 128) :
    (Header.decode raw).encode = raw := by
  have hreserved : List.ofFn (fun i : Fin 24 => raw.getD (104 + i) 0) = raw.drop 104 := by
    apply List.ext_getElem
    · rw [List.length_ofFn, List.length_drop, h]
    · intro i h₁ h₂
      rw [List.length_ofFn] at h₁
      rw [List.getElem_ofFn, List.getElem_drop, List.getD_eq_getElem?_getD,
        List.getElem?_eq_getElem (by omega), Option.getD_some]
  have hsplit : ∀ i n, (raw.drop i).take n ++ raw.drop (i + n) = raw.drop i := fun i n => by
    rw [← List.drop_drop, List.take_append_drop]
  rw [Header.encode, Header.decode]
  simp only [hreserved]
  rw [le32_u32At (by omega), le16_u16At (by omega), le16_u16At (by omega)]
  repeat rw [le64_u64At (by omega)]
  simp only [List.append_assoc]
  rw [hsplit 96 8, hsplit 88 8, hsplit 80 8, hsplit 72 8, hsplit 64 8, hsplit 56 8, hsplit 48 8,
    hsplit 40 8, hsplit 32 8, hsplit 24 8, hsplit 16 8, hsplit 8 8, hsplit 6 2, hsplit 4 2,
    hsplit 0 4, List.drop_zero]

/-! ## The fields follow from one another -/

/-- Only one word has the required flags and none of the others. -/
theorem eq_of_and_mask {x mask : UInt64} (hrequired : x &&& mask = mask)
    (hreserved : x &&& ~~~mask = 0) : x = mask := by
  have hsplit : x = x &&& mask ||| x &&& ~~~mask := by
    apply UInt64.eq_of_toBitVec_eq
    ext i hi
    simp only [UInt64.toBitVec_or, UInt64.toBitVec_and, UInt64.toBitVec_not, BitVec.getElem_or,
      BitVec.getElem_and, BitVec.getElem_not]
    cases x.toBitVec[i] <;> cases mask.toBitVec[i] <;> rfl
  rw [hrequired, hreserved, UInt64.or_zero] at hsplit
  exact hsplit

/-- `24 * root_count` determines `root_count`, by its limit. -/
theorem rootCount_eq {n m : UInt64} (hn : n ≤ rootCountMax) (hm : m ≤ rootCountMax)
    (h : n * rootEntrySize = m * rootEntrySize) : n = m := by
  have hbound : ∀ {k : UInt64}, k ≤ rootCountMax →
      (k * rootEntrySize).toNat = k.toNat * 24 := by
    intro k hk
    rw [UInt64.le_iff_toNat_le, show rootCountMax.toNat = 768614336404564650 from rfl] at hk
    rw [UInt64.toNat_mul, show rootEntrySize.toNat = 24 from rfl]
    exact Nat.mod_eq_of_lt (by omega)
  have hproduct := congrArg UInt64.toNat h
  rw [hbound hn, hbound hm] at hproduct
  exact UInt64.toNat_inj.mp (Nat.eq_of_mul_eq_mul_right (by decide) hproduct)

theorem Header.LayoutAccepted.footerOffset_eq {header header' : Header} {size : UInt64}
    (h : header.LayoutAccepted size) (h' : header'.LayoutAccepted size) :
    header'.footerOffset = header.footerOffset := by
  have hend : header'.footerOffset + footerSize = header.footerOffset + footerSize := by
    rw [h.footerEnd, h'.footerEnd, h.fileSize, h'.fileSize]
  exact (UInt64.add_left_inj _).mp hend

/-- Each field follows from the others, the size, the checksum and the count: two accepted
headers with one root count or one size of the root index, and one offset of the strings or one
size of the nodes, are the same. -/
theorem Header.LayoutAccepted.eq {header header' : Header} {size : UInt64}
    (h : header.LayoutAccepted size) (h' : header'.LayoutAccepted size)
    (hroots : header'.rootCount = header.rootCount ∨ header'.rootIndexSize = header.rootIndexSize)
    (hstrings : header'.stringsOffset = header.stringsOffset ∨
      header'.nodesSize = header.nodesSize)
    (hsum : header'.checksumXxh3 = header.checksumXxh3)
    (hcount : header'.stringsCount = header.stringsCount) : header' = header := by
  have hfooter := h.footerOffset_eq h'
  have hrootCount : header'.rootCount = header.rootCount := by
    rcases hroots with hsame | hsize
    · exact hsame
    · rw [h.rootIndexSize, h'.rootIndexSize] at hsize
      exact rootCount_eq h'.rootCount h.rootCount hsize
  have hrootsSize : header'.rootIndexSize = header.rootIndexSize := by
    rw [h.rootIndexSize, h'.rootIndexSize, hrootCount]
  have hstart := h'.rootIndexOffset.trans h.rootIndexOffset.symm
  have hnodes : header'.nodesOffset = header.nodesOffset := by
    rw [h.nodesOffset, h'.nodesOffset, hstart, hrootsSize]
  have hstringsOffset : header'.stringsOffset = header.stringsOffset := by
    rcases hstrings with hsame | hsize
    · exact hsame
    · rw [h.stringsOffset, h'.stringsOffset, hnodes, hsize]
  have hnodesSize : header'.nodesSize = header.nodesSize := by
    have hsums := hstringsOffset
    rw [h.stringsOffset, h'.stringsOffset, hnodes] at hsums
    exact (UInt64.add_right_inj _).mp hsums
  have hstringsSize : header'.stringsSize = header.stringsSize := by
    have hsums := hfooter
    rw [h.footerOffset, h'.footerOffset, hstringsOffset] at hsums
    exact (UInt64.add_right_inj _).mp hsums
  have hminor : ∀ {version : UInt16}, version ≤ versionMinorNumber → version = 0 :=
    fun hle => UInt16.le_antisymm hle (UInt16.le_iff_toNat_le.mpr (Nat.zero_le _))
  have hmagic := h'.magic.trans h.magic.symm
  have hmajor := h'.versionMajor.trans h.versionMajor.symm
  have hminor' := (hminor h'.versionMinor).trans (hminor h.versionMinor).symm
  have hfile := h'.fileSize.trans h.fileSize.symm
  have hflags := (eq_of_and_mask h'.flagsRequired h'.flagsReserved).trans
    (eq_of_and_mask h.flagsRequired h.flagsReserved).symm
  have hreserved : header'.reserved = header.reserved :=
    funext fun i => (h'.reserved i).trans (h.reserved i).symm
  cases header
  cases header'
  rw [Header.mk.injEq]
  exact ⟨hmagic, hmajor, hminor', hfile, hflags, hrootCount, hstart, hrootsSize, hnodes,
    hnodesSize, hstringsOffset, hstringsSize, hcount, hfooter, hsum, hreserved⟩

/-! ## Replaced bytes -/

/-- The header a buffer starts with. -/
def Buffer.header (b : Buffer) : Header := Header.decode (b.bytes.take 128)

theorem Enveloped.eq_header {b : Buffer} {header : Header} (h : Enveloped b header) :
    header = b.header := by
  have hload := h.header_eq
  rw [loadHeader_ok (by have := h.size_le; omega)] at hload
  cases hload
  rfl

theorem Buffer.header_replace_of_le {b : Buffer} {p : Nat} {x : UInt8} (h : 128 ≤ p) :
    (b.replace p x).header = b.header := by
  rw [Buffer.header, Buffer.replace, List.take_set_of_le h, Buffer.header]

theorem Buffer.header_replace (b : Buffer) (p : Nat) (x : UInt8) :
    (b.replace p x).header = Header.decode ((b.bytes.take 128).set p x) := by
  rw [Buffer.header, Buffer.replace, List.take_set]

/-- A header that stays the same has kept its bytes. -/
theorem Buffer.getElem?_of_header_replace {b : Buffer} {p : Nat} {x : UInt8} (hp : p < 128)
    (hsize : 160 ≤ b.bytes.length) (h : (b.replace p x).header = b.header) :
    b.bytes[p]? = some x := by
  have hlen : (b.bytes.take 128).length = 128 := by
    rw [List.length_take]
    omega
  have hset : (b.bytes.take 128).set p x = b.bytes.take 128 := by
    have hencode := congrArg Header.encode h
    rwa [Buffer.header_replace, Buffer.header, Header.encode_decode hlen,
      Header.encode_decode (List.length_set.trans hlen)] at hencode
  have hget : ((b.bytes.take 128).set p x)[p]? = some x := by
    rw [List.getElem?_set_self (by omega)]
  rw [hset, List.getElem?_take_of_lt hp] at hget
  exact hget

/-- Bytes from a place behind the replaced one on. -/
theorem Buffer.load_replace {b : Buffer} {p n : Nat} {x : UInt8} {offset : UInt64}
    (h : p < offset.toNat) : load (b.replace p x) offset n = load b offset n := by
  rw [load, load, fetch, fetch, Buffer.length_replace, Buffer.replace, List.drop_set_of_lt h]

theorem hasAt_replace {b : Buffer} {p place : Nat} {x : UInt8} {xs : Bytes} (h : p < place) :
    HasAt (b.replace p x).bytes place xs ↔ HasAt b.bytes place xs := by
  rw [HasAt, HasAt, Buffer.replace, List.drop_set_of_lt h]

/-- The header's own checksum is in the footer too. -/
theorem Enveloped.checksum_replace {b : Buffer} {p : Nat} {x : UInt8} {header header' : Header}
    (h : Enveloped b header) (h' : Enveloped (b.replace p x) header') (hp : p < 128) :
    header'.checksumXxh3 = header.checksumXxh3 := by
  have hsize := h.size_le
  have hlayout := h'.layout
  rw [Buffer.size_replace] at hlayout
  have hend := h.layout.footer_toNat hsize
  obtain ⟨footer, hfooter, -, -, hsum⟩ := h.footer
  obtain ⟨footer', hfooter', -, -, hsum'⟩ := h'.footer
  rw [h.layout.footerOffset_eq hlayout, loadFooter, Buffer.load_replace (by omega), ← loadFooter,
    hfooter] at hfooter'
  cases hfooter'
  exact hsum'.symm.trans hsum

/-- No byte of the header outside of the count can be replaced. -/
theorem not_enveloped_of_header {b : Buffer} {header : Header} (h : Enveloped b header) {p : Nat}
    {x : UInt8} (hp : p < 128) (hcount : p < 80 ∨ 88 ≤ p) (hx : b.bytes[p]? ≠ some x)
    (header' : Header) : ¬Enveloped (b.replace p x) header' := by
  intro h'
  have hsame := h.checksum_replace h' hp
  have hlayout := h.layout
  have hlayout' := h'.layout
  rw [Buffer.size_replace] at hlayout'
  rw [h.eq_header] at hsame hlayout
  rw [h'.eq_header] at hsame hlayout'
  refine hx (Buffer.getElem?_of_header_replace hp h.size_le (hlayout.eq hlayout' ?_ ?_ hsame ?_))
  · rw [Buffer.header_replace, Buffer.header]
    by_cases hin : 24 ≤ p ∧ p < 32
    · exact .inr (u64At_set (i := 40) (by omega))
    · exact .inl (u64At_set (i := 24) (by omega))
  · rw [Buffer.header_replace, Buffer.header]
    by_cases hin : 64 ≤ p ∧ p < 72
    · exact .inr (u64At_set (i := 56) (by omega))
    · exact .inl (u64At_set (i := 64) (by omega))
  · rw [Buffer.header_replace, Buffer.header]
    exact u64At_set (i := 80) (by omega)

/-- Bytes of equal parts. -/
theorem getElem?_of_part {raw raw' : List UInt8} {i n k : Nat}
    (h : (raw.drop i).take n = (raw'.drop i).take n) (hi : i ≤ k) (hk : k < i + n) :
    raw[k]? = raw'[k]? := by
  have hget := congrArg (fun bytes : List UInt8 => bytes[k - i]?) h
  simp only [List.getElem?_take_of_lt (show k - i < n by omega), List.getElem?_drop] at hget
  rwa [Nat.add_sub_cancel' hi] at hget

/-- No byte of the checked fields of the footer can be replaced. -/
theorem not_enveloped_of_footer {b : Buffer} {header : Header} (h : Enveloped b header) {p : Nat}
    {x : UInt8} (hp : b.bytes.length - 32 ≤ p) (hp' : p < b.bytes.length - 12)
    (hx : b.bytes[p]? ≠ some x) (header' : Header) : ¬Enveloped (b.replace p x) header' := by
  intro h'
  have hsize := h.size_le
  have hend := h.layout.footer_toNat hsize
  have hsame : header' = header := by
    rw [h'.eq_header, h.eq_header, Buffer.header_replace_of_le (by omega)]
  rw [hsame] at h'
  obtain ⟨footer, hfooter, hmagic, hfile, hsum⟩ := h.footer
  obtain ⟨footer', hfooter', hmagic', hfile', hsum'⟩ := h'.footer
  rw [loadFooter_ok h.layout hsize] at hfooter
  rw [loadFooter_ok h'.layout (by rw [Buffer.length_replace]; exact hsize)] at hfooter'
  cases hfooter
  cases hfooter'
  have hlen : ((b.bytes.drop header.footerOffset.toNat).take 32).length = 32 := by
    rw [List.length_take, List.length_drop]
    omega
  have hlen' : (((b.replace p x).bytes.drop header.footerOffset.toNat).take 32).length = 32 := by
    rw [List.length_take, List.length_drop, Buffer.length_replace]
    omega
  have hget : (((b.replace p x).bytes.drop header.footerOffset.toNat).take 32)[
      p - header.footerOffset.toNat]? = some x := by
    rw [List.getElem?_take_of_lt (by omega), List.getElem?_drop,
      Nat.add_sub_cancel' (by omega), Buffer.replace, List.getElem?_set_self (by omega)]
  have hold : ((b.bytes.drop header.footerOffset.toNat).take 32)[
      p - header.footerOffset.toNat]? = b.bytes[p]? := by
    rw [List.getElem?_take_of_lt (by omega), List.getElem?_drop, Nat.add_sub_cancel' (by omega)]
  rw [← hold, ← hget] at hx
  generalize ((b.replace p x).bytes.drop header.footerOffset.toNat).take 32 = raw' at *
  generalize (b.bytes.drop header.footerOffset.toNat).take 32 = raw at *
  have hplace : p - header.footerOffset.toNat < 20 := by omega
  apply hx
  -- the three fields cover the twenty bytes
  by_cases hfirst : p - header.footerOffset.toNat < 8
  · have hwords := congrArg le64 (hsum.trans hsum'.symm)
    rw [Footer.decode, Footer.decode, le64_u64At (by omega), le64_u64At (by omega)] at hwords
    exact getElem?_of_part hwords (by omega) (by omega)
  · by_cases hsecond : p - header.footerOffset.toNat < 16
    · have hwords := congrArg le64 (hfile.trans hfile'.symm)
      rw [Footer.decode, Footer.decode, le64_u64At (by omega), le64_u64At (by omega)] at hwords
      exact getElem?_of_part hwords (by omega) (by omega)
    · have hwords := congrArg le32 (hmagic.trans hmagic'.symm)
      rw [Footer.decode, Footer.decode, le32_u32At (by omega), le32_u32At (by omega)] at hwords
      exact getElem?_of_part hwords (by omega) (by omega)

/-! ## The count of the strings -/

/-- Replacing a byte of the count changes the count only. -/
theorem Buffer.header_replace_count {b : Buffer} {p : Nat} {x : UInt8} (hp : 80 ≤ p ∧ p < 88) :
    (b.replace p x).header =
      { b.header with stringsCount := (b.replace p x).header.stringsCount } := by
  rw [Buffer.header_replace, Buffer.header]
  have hreserved : ∀ i : Fin 24, ((b.bytes.take 128).set p x).getD (104 + i) 0 =
      (b.bytes.take 128).getD (104 + i) 0 := by
    intro i
    rw [List.getD_eq_getElem?_getD, List.getD_eq_getElem?_getD, List.getElem?_set_ne (by omega)]
  simp only [Header.decode, Header.mk.injEq]
  exact ⟨u32At_set (by omega), u16At_set (by omega), u16At_set (by omega),
    u64At_set (by omega), u64At_set (by omega), u64At_set (by omega), u64At_set (by omega),
    u64At_set (by omega), u64At_set (by omega), u64At_set (by omega), u64At_set (by omega),
    u64At_set (by omega), trivial, u64At_set (by omega), u64At_set (by omega), funext hreserved⟩

/-- The envelope does not look at the count. -/
theorem Enveloped.replace_count {b : Buffer} (h : Enveloped b b.header) {p : Nat} {x : UInt8}
    (hp : 80 ≤ p ∧ p < 88) : Enveloped (b.replace p x) (b.replace p x).header := by
  have hsize := h.size_le
  have hlayout := h.layout
  have hend := hlayout.footer_toNat hsize
  obtain ⟨footer, hfooter, hmagic, hfile, hsum⟩ := h.footer
  refine ⟨by rwa [Buffer.length_replace], ?_, ?_, footer, ?_, hmagic, ?_, ?_⟩
  · rw [loadHeader_ok (by rwa [Buffer.length_replace]), Buffer.header]
  · rw [Buffer.size_replace, Buffer.header_replace_count hp]
    exact ⟨hlayout.magic, hlayout.versionMajor, hlayout.versionMinor, hlayout.flagsRequired,
      hlayout.flagsReserved, hlayout.fileSize, hlayout.reserved, hlayout.rootIndexOffset,
      hlayout.rootCount, hlayout.rootIndexSize, hlayout.nodesOffset, hlayout.stringsOffset,
      hlayout.footerOffset, hlayout.footerEnd⟩
  · rw [Buffer.header_replace_count hp, loadFooter, Buffer.load_replace (by simp only; omega),
      ← loadFooter]
    exact hfooter
  · rw [Buffer.header_replace_count hp]
    exact hfile
  · rw [Buffer.header_replace_count hp]
    exact hsum

/-- Byte `p` of the count is in the strings section itself, and with the byte replaced the
section holds as many strings as are then counted. -/
def CountsItself (b : Buffer) (p : Nat) (x : UInt8) : Prop :=
  (80 ≤ p ∧ p < 88) ∧ b.header.stringsOffset.toNat ≤ p ∧
    ∃ strings, PoolHeld (b.replace p x) (b.replace p x).header strings

/-- A section behind the replaced byte holds the strings it held, so that it does not match
another count. -/
theorem PoolHeld.count_unique {b : Buffer} {p : Nat} {x : UInt8} {strings strings' : List Bytes}
    (h : PoolHeld b b.header strings)
    (h' : PoolHeld (b.replace p x) (b.replace p x).header strings') (hp : 80 ≤ p ∧ p < 88)
    (hbehind : p < b.header.stringsOffset.toNat) : (b.replace p x).header = b.header := by
  have hheader := b.header_replace_count (x := x) hp
  have hoffset : (b.replace p x).header.stringsOffset = b.header.stringsOffset := by rw [hheader]
  have hsizes : (b.replace p x).header.stringsSize = b.header.stringsSize := by rw [hheader]
  have hheld' := h'.held
  rw [hoffset, hasAt_replace hbehind] at hheld'
  have hlength : (poolBytes strings).length = (poolBytes strings').length := by
    rw [h.size_eq, h'.size_eq, hsizes]
  have hsame : poolBytes strings = poolBytes strings' :=
    (List.prefix_of_prefix_length_le h.held hheld' hlength.le).eq_of_length hlength
  have hcount : (b.replace p x).header.stringsCount = b.header.stringsCount := by
    rw [← UInt64.toNat_inj, ← h.count_eq, ← h'.count_eq,
      poolBytes_inj h.length_le h'.length_le hsame]
  rw [hheader, hcount]

/-- The root index stays as it is. -/
theorem RootsHeld.replace_count {b : Buffer} {p : Nat} {x : UInt8} {entries : List Entry}
    (h : RootsHeld b b.header entries) (hp : 80 ≤ p ∧ p < 88) :
    RootsHeld (b.replace p x) (b.replace p x).header entries := by
  refine ⟨(hasAt_replace (by omega)).mpr h.held, ?_, h.sorted, fun entry hentry => ?_⟩
  · rw [Buffer.header_replace_count hp]
    exact h.count_eq
  · obtain ⟨h₁, h₂, h₃, h₄⟩ := h.inSections entry hentry
    rw [Buffer.header_replace_count hp]
    exact ⟨h₁, h₂, h₃, h₄⟩

/-- Strings that are there end inside the object. -/
theorem PoolHeld.inside {b : Buffer} {header : Header} {strings : List Bytes}
    (h : PoolHeld b header strings) (hlayout : header.LayoutAccepted b.size)
    (hsize : 160 ≤ b.bytes.length) :
    header.stringsOffset.toNat + header.stringsSize.toNat ≤ b.bytes.length := by
  rw [← h.size_eq]
  by_cases hempty : poolBytes strings = []
  · have hzero : header.stringsSize = 0 := by
      rw [← UInt64.toNat_inj, ← h.size_eq, hempty]
      rfl
    have hend := hlayout.footer_toNat hsize
    rw [hlayout.footerOffset, hzero, UInt64.add_zero] at hend
    rw [hempty, List.length_nil]
    omega
  · exact h.held.le_length hempty

/-- With a byte of the count replaced, the verifier comes to the scan of the strings. -/
theorem verifyBuffer_replace_eq {hash64 : Bytes → UInt64} {b : Buffer}
    (hverify : verifyBuffer hash64 b = .ok .ok) {p : Nat} {x : UInt8} (hp : 80 ≤ p ∧ p < 88) :
    (∃ strings, PoolHeld b b.header strings) ∧ Enveloped b b.header ∧
      ∀ s, verifyStringsPool (b.replace p x) (b.replace p x).header = .ok s →
        verifyBuffer hash64 (b.replace p x) = .ok s := by
  obtain ⟨header, henvelope, ⟨payload, hpayload, hsum⟩, hstrings, ⟨entries, hroots⟩⟩ :=
    verifyBuffer_eq_ok.mp hverify
  cases henvelope.eq_header
  refine ⟨hstrings, henvelope, fun s hs => ?_⟩
  have henvelope' := henvelope.replace_count (x := x) hp
  have hheader := b.header_replace_count (x := x) hp
  have hstart : b.header.rootIndexOffset.toNat = 128 :=
    congrArg UInt64.toNat henvelope.layout.rootIndexOffset
  have hpayload' : load (b.replace p x) (b.replace p x).header.rootIndexOffset
      ((b.replace p x).header.footerOffset - (b.replace p x).header.rootIndexOffset).toNat =
        .ok payload := by
    rw [hheader, Buffer.load_replace (by rw [hstart]; omega)]
    exact hpayload
  have hsum' : hash64 payload = (b.replace p x).header.checksumXxh3 := by
    rw [hheader]
    exact hsum
  rw [verifyBuffer_of_enveloped henvelope', verifyPayload, hpayload', ok_bind,
    if_neg (not_not.mpr hsum'), hs, ok_bind]
  by_cases hok : s = .ok
  · rw [hok, if_neg (not_not.mpr rfl)]
    exact (verifyRootIndex_eq_ok henvelope'.layout.rootIndexOffset).mpr
      ⟨entries, hroots.replace_count hp⟩
  · rw [if_pos hok]

theorem verifyBuffer_replace_of_countsItself {hash64 : Bytes → UInt64} {b : Buffer}
    (hverify : verifyBuffer hash64 b = .ok .ok) {p : Nat} {x : UInt8} (h : CountsItself b p x) :
    verifyBuffer hash64 (b.replace p x) = .ok .ok :=
  (verifyBuffer_replace_eq hverify h.1).2.2 _ (verifyStringsPool_eq_ok.mpr h.2.2)

theorem verifyBuffer_replace_count {hash64 : Bytes → UInt64} {b : Buffer}
    (hverify : verifyBuffer hash64 b = .ok .ok) {p : Nat} {x : UInt8} (hp : 80 ≤ p ∧ p < 88)
    (hx : b.bytes[p]? ≠ some x) (hnot : ¬CountsItself b p x) :
    ∃ s, s ≠ .ok ∧ verifyBuffer hash64 (b.replace p x) = .ok s := by
  obtain ⟨⟨strings, hstrings⟩, henvelope, hpool⟩ := verifyBuffer_replace_eq (x := x) hverify hp
  have hinside := hstrings.inside henvelope.layout henvelope.size_le
  obtain ⟨s, hs⟩ : ∃ s, verifyStringsPool (b.replace p x) (b.replace p x).header = .ok s := by
    refine verifyStringsPool_returns ?_
    rw [b.header_replace_count hp, Buffer.length_replace]
    exact hinside
  refine ⟨s, fun hok => ?_, hpool s hs⟩
  rw [hok] at hs
  obtain ⟨strings', hstrings'⟩ := verifyStringsPool_eq_ok.mp hs
  by_cases hbehind : p < b.header.stringsOffset.toNat
  · exact hx (Buffer.getElem?_of_header_replace (by omega) henvelope.size_le
      (hstrings.count_unique hstrings' hp hbehind))
  · exact hnot ⟨hp, by omega, strings', hstrings'⟩

/-! ## A file that counts itself -/

/-- A header whose strings section starts at its own `strings_count`: 44 is the length of the
first string as well. -/
def overlappingHeader : Header where
  magic := magicNumber
  versionMajor := 1
  versionMinor := 0
  fileSize := 352
  flags := flagsV1Required
  rootCount := 0
  rootIndexOffset := 128
  rootIndexSize := 0
  nodesOffset := 128
  nodesSize := 0xFFFFFFFFFFFFFFD0
  stringsOffset := 80
  stringsSize := 240
  stringsCount := 44
  footerOffset := 320
  checksumXxh3 := 0
  reserved := fun _ => 0

def overlappingPayload : Bytes := leBytes 4 20 ++ List.replicate 188 0

def overlappingFooter : Footer where
  checksumXxh3 := 0
  fileSize := 352
  magicEnd := magicNumber
  reserved := fun _ => 0

def overlappingFile : Buffer where
  bytes := overlappingHeader.encode ++ overlappingPayload ++ overlappingFooter.encode
  length_lt := by decide +kernel

/-- Its section: the first string is the rest of the header, then come a string of zeros, if
any, and empty ones. -/
def overlappingStrings (b : Buffer) (first : Nat) (zeros : List Bytes) (empty : Nat) :
    List Bytes :=
  (b.bytes.drop 84).take first :: zeros ++ List.replicate empty []

theorem overlappingFile_sealed : Sealed overlappingFile overlappingHeader overlappingPayload :=
  ⟨⟨rfl, rfl, by decide, by decide, by decide, by decide +kernel, by decide, rfl, by decide,
    by decide, by decide, by decide, by decide, by decide⟩, overlappingFooter, rfl, rfl, rfl, rfl⟩

theorem overlappingFile_header : overlappingFile.header = overlappingHeader :=
  (overlappingFile_sealed.enveloped.eq_header).symm

theorem overlappingFile_strings : PoolHeld overlappingFile overlappingHeader
    (overlappingStrings overlappingFile 44 [List.replicate 20 0] 42) := by
  refine ⟨fun s hs => isUtf8_of_ascii ?_, by decide +kernel, ?_, by decide +kernel,
    by decide +kernel⟩
  · revert s
    decide +kernel
  · rw [HasAt]
    decide +kernel

theorem overlappingFile_verified : verifyBuffer (fun _ => 0) overlappingFile = .ok .ok :=
  verifyBuffer_eq_ok.mpr ⟨_, overlappingFile_sealed.enveloped,
    ⟨_, overlappingFile_sealed.load_payload, rfl⟩, ⟨_, overlappingFile_strings⟩, [],
    HasAt.nil _ _, rfl, List.Pairwise.nil, fun _ h => absurd h List.not_mem_nil⟩

/-- With 48 for 44 the first string takes the length word of the second as well, and what was
its text are empty strings. -/
theorem overlappingFile_countsItself : CountsItself overlappingFile 80 0x30 := by
  refine ⟨by decide, ?_, overlappingStrings (overlappingFile.replace 80 0x30) 48 [] 47, ?_⟩
  · rw [overlappingFile_header]
    decide
  · have hheader : (overlappingFile.replace 80 0x30).header =
        { overlappingHeader with stringsCount := 48 } := by
      rw [Buffer.header_replace_count (by decide), overlappingFile_header]
      congr 1
    rw [hheader]
    refine ⟨fun s hs => isUtf8_of_ascii ?_, by decide +kernel, ?_, by decide +kernel,
      by decide +kernel⟩
    · revert s
      decide +kernel
    · rw [HasAt]
      decide +kernel

/-! ## Which replacements are refused -/

/-- In a file that verifies, the replacement of one byte of the header or of the checked
fields of the footer is refused, unless the byte is one of the count of the strings, the
strings section holds that count, and the section is again one of as many strings as the
count says after the replacement. -/
theorem replaced_byte_refused_iff {hash64 : Bytes → UInt64} {b : Buffer}
    (hverify : verifyBuffer hash64 b = .ok .ok) {p : Nat}
    (hp : p < 128 ∨ b.bytes.length - 32 ≤ p ∧ p < b.bytes.length - 12) {x : UInt8}
    (hx : b.bytes[p]? ≠ some x) :
    (∃ s, s ≠ .ok ∧ verifyBuffer hash64 (b.replace p x) = .ok s) ↔ ¬CountsItself b p x := by
  constructor
  · rintro ⟨s, hne, hs⟩ hcounts
    rw [verifyBuffer_replace_of_countsItself hverify hcounts] at hs
    cases hs
    exact hne rfl
  · intro hnot
    by_cases hcount : 80 ≤ p ∧ p < 88
    · exact verifyBuffer_replace_count hverify hcount hx hnot
    · obtain ⟨header, henvelope, -⟩ := verifyBuffer_eq_ok.mp hverify
      obtain ⟨s, hs, hs'⟩ : ∃ s, verifyBuffer hash64 (b.replace p x) = .ok s ∧
          s.ofEnvelope = true := verifyBuffer_of_not_enveloped hash64 <| by
        rcases hp with hheader | ⟨hlow, hhigh⟩
        · exact not_enveloped_of_header henvelope hheader (by omega) hx
        · exact not_enveloped_of_footer henvelope hlow hhigh hx
      refine ⟨s, fun hok => ?_, hs⟩
      rw [hok] at hs'
      cases hs'

theorem replaced_byte_refused_magic :
    ∃ s, s ≠ .ok ∧ verifyBuffer (fun _ => 0) (overlappingFile.replace 0 0) = .ok s :=
  (replaced_byte_refused_iff overlappingFile_verified (.inl (by decide))
    (by decide +kernel)).mpr fun h => absurd h.1 (by decide)

/-- In this file a byte of the header is replaced, and it is verified again. -/
theorem replaced_byte_accepted : ¬∀ (hash64 : Bytes → UInt64) (b : Buffer) (p : Nat) (x : UInt8),
    verifyBuffer hash64 b = .ok .ok →
    (p < 128 ∨ b.bytes.length - 32 ≤ p ∧ p < b.bytes.length - 12) → b.bytes[p]? ≠ some x →
    ∃ s, s ≠ .ok ∧ verifyBuffer hash64 (b.replace p x) = .ok s := by
  intro hall
  obtain ⟨s, hne, hs⟩ := hall (fun _ => 0) overlappingFile 80 0x30 overlappingFile_verified
    (.inl (by decide)) (by decide +kernel)
  rw [verifyBuffer_replace_of_countsItself overlappingFile_verified
    overlappingFile_countsItself] at hs
  cases hs
  exact hne rfl

end Hrbl
