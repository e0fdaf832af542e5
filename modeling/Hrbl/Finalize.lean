import Hrbl.Emission

/-!
# Files of documents

The file that `finalize_to_buffer` returns is the file of the layout, whatever the hash,
the number of workers and the interleaving of their stores.
-/

namespace Hrbl

open Lib NodeTree

/-! ## Output -/

/-- A copy over bytes that are there. -/
theorem storeOutput_yields (pre hole post bytes : Bytes) {offset : UInt64}
    (hoffset : offset.toNat = pre.length) (hlen : bytes.length = hole.length) :
    Yields (storeOutput (pre ++ hole ++ post) offset bytes) (.ok (pre ++ bytes ++ post)) := by
  have hfits : offset.toNat + bytes.length ≤ (pre ++ hole ++ post).length := by
    rw [List.length_append, List.length_append]
    omega
  rw [storeOutput, if_pos hfits, hoffset, overwrite_append pre hole post bytes hlen]
  exact yields_pure _

theorem length_flatMap_encode (entries : List Entry) :
    (entries.flatMap Entry.encode).length = entries.length * 24 := by
  induction entries with
  | nil => rfl
  | cons e entries ih =>
    rw [List.flatMap_cons, List.length_append, Entry.length_encode, ih, List.length_cons]
    omega

theorem storeRootIndex_yields (entries : List Entry) :
    ∀ (pre hole post : Bytes) {offset : UInt64}, offset.toNat = pre.length →
      hole.length = entries.length * 24 → pre.length + entries.length * 24 < 2 ^ 64 →
      Yields (storeRootIndex entries offset (pre ++ hole ++ post))
        (.ok (pre ++ entries.flatMap Entry.encode ++ post)) := by
  induction entries with
  | nil =>
    intro pre hole post offset _ hhole _
    obtain rfl : hole = [] := List.length_eq_zero_iff.mp (hhole.trans (Nat.zero_mul 24))
    exact yields_pure _
  | cons e entries ih =>
    intro pre hole post offset hoffset hhole hlt
    rw [List.length_cons] at hhole hlt
    have hsplit : pre ++ hole ++ post = pre ++ hole.take 24 ++ (hole.drop 24 ++ post) := by
      rw [List.append_assoc, List.append_assoc, ← List.append_assoc (hole.take 24),
        List.take_append_drop]
    have hlen : e.encode.length = (hole.take 24).length := by
      rw [Entry.length_encode, List.length_take]
      omega
    have hnext : (offset + rootEntrySize).toNat = (pre ++ e.encode).length := by
      have htwentyfour : rootEntrySize.toNat = 24 := rfl
      rw [UInt64.toNat_add, htwentyfour, hoffset, List.length_append, Entry.length_encode]
      omega
    have hrest := ih (pre ++ e.encode) (hole.drop 24) post hnext
      (by rw [List.length_drop]; omega)
      (by rw [List.length_append, Entry.length_encode]; omega)
    rw [storeRootIndex, hsplit, List.flatMap_cons, ← List.append_assoc pre]
    refine (storeOutput_yields _ _ _ _ hoffset hlen).bind ?_
    rw [← List.append_assoc]
    exact hrest

/-- The header in front of its checksum. -/
def Header.front (h : Header) : Bytes :=
  le32 h.magic ++ le16 h.versionMajor ++ le16 h.versionMinor ++ le64 h.fileSize
    ++ le64 h.flags ++ le64 h.rootCount ++ le64 h.rootIndexOffset ++ le64 h.rootIndexSize
    ++ le64 h.nodesOffset ++ le64 h.nodesSize ++ le64 h.stringsOffset ++ le64 h.stringsSize
    ++ le64 h.stringsCount ++ le64 h.footerOffset

theorem Header.length_front (h : Header) : h.front.length = 96 := by
  simp [Header.front]

theorem Header.encode_eq (h : Header) :
    h.encode = h.front ++ le64 h.checksumXxh3 ++ List.ofFn h.reserved := rfl

/-- The sections of a header are as long as the parts of a file. -/
structure Header.Fits (h : Header) (rootEntries : List Entry) (nodes strings : Bytes) : Prop where
  nodesOffset : h.nodesOffset.toNat = 128 + rootEntries.length * 24
  stringsOffset : h.stringsOffset.toNat = h.nodesOffset.toNat + nodes.length
  footerOffset : h.footerOffset.toNat = h.stringsOffset.toNat + strings.length
  fileSize : h.fileSize.toNat = h.footerOffset.toNat + 32

theorem copyParts_yields {header : Header} {rootEntries : List Entry} {nodes strings : Bytes}
    (hfits : header.Fits rootEntries nodes strings) :
    Yields (copyParts header rootEntries nodes strings) (.ok (header.encode ++
      (rootEntries.flatMap Entry.encode ++ nodes ++ strings) ++ List.replicate 32 0)) := by
  have hroots := length_flatMap_encode rootEntries
  have hlt := header.fileSize.toNat_lt
  have hsize : header.fileSize.toNat = 128 + (rootEntries.length * 24 +
      (nodes.length + (strings.length + 32))) := by
    rw [hfits.fileSize, hfits.footerOffset, hfits.stringsOffset, hfits.nodesOffset]
    omega
  have hzeros : List.replicate header.fileSize.toNat (0 : UInt8) = [] ++ List.replicate 128 0 ++
      (List.replicate (rootEntries.length * 24) 0 ++ (List.replicate nodes.length 0 ++
        (List.replicate strings.length 0 ++ List.replicate 32 0))) := by
    rw [hsize]
    simp only [List.replicate_append_replicate, List.nil_append]
  -- the parts, one after the other over zeros
  have h₁ : Yields (storeOutput (List.replicate header.fileSize.toNat 0) 0 header.encode)
      (.ok (header.encode ++ List.replicate (rootEntries.length * 24) 0 ++
        (List.replicate nodes.length 0 ++ (List.replicate strings.length 0 ++
          List.replicate 32 0)))) := by
    rw [hzeros, List.append_assoc header.encode]
    exact storeOutput_yields _ _ _ _ rfl (by rw [Header.length_encode, List.length_replicate])
  have h₂ := storeRootIndex_yields rootEntries header.encode
    (List.replicate (rootEntries.length * 24) 0) (List.replicate nodes.length 0 ++
      (List.replicate strings.length 0 ++ List.replicate 32 0))
    (show rootIndexStart.toNat = _ by rw [Header.length_encode]; rfl) List.length_replicate
    (by rw [Header.length_encode]; omega)
  generalize hindex : rootEntries.flatMap Entry.encode = index at *
  have h₃ := storeOutput_yields (header.encode ++ index) (List.replicate nodes.length 0)
    (List.replicate strings.length 0 ++ List.replicate 32 0) nodes
    (show header.nodesOffset.toNat = _ by
      rw [hfits.nodesOffset, List.length_append, Header.length_encode, hroots])
    List.length_replicate.symm
  have h₄ := storeOutput_yields (header.encode ++ index ++ nodes)
    (List.replicate strings.length 0) (List.replicate 32 0) strings
    (show header.stringsOffset.toNat = _ by
      rw [hfits.stringsOffset, hfits.nodesOffset, List.length_append, List.length_append,
        Header.length_encode, hroots])
    List.length_replicate.symm
  simp only [List.append_assoc] at h₁ h₂ h₃ h₄ ⊢
  exact h₁.bind (h₂.bind (h₃.bind h₄))

/-- The checksum and the footer, over whatever 32 bytes are at the end. -/
theorem sealOutput_yields (env : Env) {header : Header} {payload rest : Bytes}
    (hlength : header.footerOffset.toNat = 128 + payload.length) (hrest : rest.length = 32) :
    Yields (sealOutput env header (header.encode ++ payload ++ rest)) (.ok (
      { header with checksumXxh3 := env.hash64 payload }.encode ++ payload ++ Footer.encode {
        checksumXxh3 := env.hash64 payload
        fileSize := header.fileSize
        magicEnd := magicNumber
        reserved := fun _ => 0 })) := by
  have hpayload : (header.footerOffset - rootIndexStart).toNat = payload.length := by
    have hstart : rootIndexStart.toNat = 128 := rfl
    rw [UInt64.toNat_sub_of_le _ _ (by rw [UInt64.le_iff_toNat_le, hstart]; omega), hstart]
    omega
  have hfetch : fetch (header.encode ++ payload ++ rest) rootIndexStart.toNat
      (header.footerOffset - rootIndexStart).toNat = some payload := by
    have hat := HasAt.intro header.encode payload rest
    rw [hpayload]
    rw [Header.length_encode] at hat
    refine hat.fetch ?_
    rw [List.length_append, List.length_append, Header.length_encode]
    exact Nat.le_add_right _ _
  have h₁ := storeOutput_yields header.front (le64 header.checksumXxh3)
    (List.ofFn header.reserved ++ (payload ++ rest)) (le64 (env.hash64 payload))
    (show (96 : UInt64).toNat = _ by rw [Header.length_front]; rfl) rfl
  have h₂ := storeOutput_yields
    ({ header with checksumXxh3 := env.hash64 payload }.encode ++ payload)
    rest [] (Footer.encode {
      checksumXxh3 := env.hash64 payload
      fileSize := header.fileSize
      magicEnd := magicNumber
      reserved := fun _ => 0 })
    (show header.footerOffset.toNat = _ by rw [List.length_append, Header.length_encode, hlength])
    (by rw [Footer.length_encode, hrest])
  rw [sealOutput, hfetch]
  rw [Header.encode_eq] at h₂ ⊢
  rw [Header.encode_eq]
  simp only [List.append_assoc, List.append_nil] at h₁ h₂ ⊢
  exact h₁.bind h₂

/-! ## Addresses -/

section

variable {hash64 : Bytes → UInt64} {document : Document}

/-- The place of the strings turns relative offsets into addresses. -/
theorem relative_add {s : Bytes} (h : s ∈ documentStrings hash64 document) :
    relative (collectedStrings document) s + UInt32.ofNat (stringsStart hash64 document) =
      documentAddress hash64 document s := by
  rw [relative, poolOffsetOf_prefix (documentStrings_isPrefix hash64 document) h, documentAddress,
    ← UInt32.ofNat_add, Nat.add_comm]

/-- The root index with absolute addresses. -/
theorem rootIndex_eq (stringsOffset : UInt64)
    (hoffset : stringsOffset.toUInt32 = UInt32.ofNat (stringsStart hash64 document)) :
    ((sortedEntries hash64 (relative (collectedStrings document))
        (membersImage hash64 (nodesStart document) 0 document).1).map
          (absoluteKey stringsOffset)).flatMap Entry.encode =
      render (documentAddress hash64 document)
        (entriesImage hash64 (membersImage hash64 (nodesStart document) 0 document).1) := by
  have hmem : ∀ m ∈ stableSort (fun m => (hash64 m.1).toNat)
      (membersImage hash64 (nodesStart document) 0 document).1,
      m.1 ∈ documentStrings hash64 document := by
    intro m hm
    refine mem_documentStrings (List.mem_append_left _ ?_)
    rw [← membersImage_keys hash64 (nodesStart document) 0 document]
    exact List.mem_map_of_mem ((stableSort_perm _ _).mem_iff.mp hm)
  rw [sortedEntries, entriesImage]
  generalize stableSort (fun m => (hash64 m.1).toNat)
    (membersImage hash64 (nodesStart document) 0 document).1 = sorted at *
  induction sorted with
  | nil => rfl
  | cons m sorted ih =>
    have haddress : absoluteKey stringsOffset
        (entryWith hash64 (relative (collectedStrings document)) m) =
        entryWith hash64 (documentAddress hash64 document) m := by
      rw [absoluteKey, entryWith, entryWith]
      congr 1
      rw [UInt64.toUInt32_add, UInt32.toUInt32_toUInt64, hoffset, UInt32.add_comm,
        relative_add (hmem m List.mem_cons_self)]
    rw [List.map_cons, List.map_cons, List.flatMap_cons, List.flatMap_cons, render_append,
      render_entryImage, haddress, ih fun x hx => hmem x (List.mem_cons_of_mem _ hx)]

end

/-! ## Assembly -/

/-- The header of a document without its checksum. -/
theorem fileHeader_eq (hash64 : Bytes → UInt64) (document : Document) :
    fileHeader (UInt64.ofNat document.length)
        (UInt64.ofNat (imageWidth (membersImage hash64 (nodesStart document) 0 document).2))
        (UInt64.ofNat (poolBytes (documentStrings hash64 document)).length)
        (UInt64.ofNat (documentStrings hash64 document).length) =
      { documentHeader hash64 document with checksumXxh3 := 0 } := by
  have hstart : rootIndexStart + UInt64.ofNat document.length * rootEntrySize =
      UInt64.ofNat (nodesStart document) := by
    rw [nodesStart, UInt64.ofNat_add, UInt64.ofNat_mul]
    rfl
  have hstrings : rootIndexStart + UInt64.ofNat document.length * rootEntrySize +
      UInt64.ofNat (imageWidth (membersImage hash64 (nodesStart document) 0 document).2) =
      UInt64.ofNat (stringsStart hash64 document) := by
    rw [hstart, ← UInt64.ofNat_add, stringsStart]
  have hfooter : UInt64.ofNat (stringsStart hash64 document) +
      UInt64.ofNat (poolBytes (documentStrings hash64 document)).length =
      UInt64.ofNat (footerStart hash64 document) := by
    rw [← UInt64.ofNat_add, footerStart]
  have hend : UInt64.ofNat (footerStart hash64 document) + footerSize =
      UInt64.ofNat (footerStart hash64 document + 32) := by
    rw [UInt64.ofNat_add]
    rfl
  have hindex : UInt64.ofNat document.length * rootEntrySize =
      UInt64.ofNat (document.length * 24) := by
    rw [UInt64.ofNat_mul]
    rfl
  have hnodes : imageWidth (membersImage hash64 (nodesStart document) 0 document).2 =
      stringsStart hash64 document - nodesStart document := by
    rw [stringsStart, Nat.add_sub_cancel_left]
  rw [fileHeader, hstrings, hfooter, hend, hstart, hindex, hnodes, documentHeader]

theorem toNat_ofNat_of_lt64 {n : Nat} (h : n < 2 ^ 64) : (UInt64.ofNat n).toNat = n := by
  rw [UInt64.toNat_ofNat', Nat.mod_eq_of_lt h]

/-- The fixups turn the addresses of an image into those behind an offset. -/
theorem applyFixups_yields (addr : Bytes → UInt32) {image : List (Chunk Bytes)} {pool : Pool}
    (capacity : Nat) (hfixups : pool.fixupOffsets.Perm (refOffsets 0 image))
    (stringsOffset : UInt64) :
    Yields (applyFixups { data := render addr image, capacity } pool stringsOffset)
      (.ok ⟨render (fun s => addr s + stringsOffset.toUInt32) image, capacity⟩) := by
  have hpatch := foldlM_addWordAt addr stringsOffset.toUInt32 [] [] hfixups
  rw [List.nil_append, List.append_nil, List.nil_append, List.append_nil] at hpatch
  rw [applyFixups, hpatch]
  exact yields_pure _

/-- The second half of the encoder. -/
theorem assemble_yields {env : Env} (henv : env.Succeeds) {document : Document}
    {workerCount : UInt64} {pool : Pool} (capacity : Nat)
    (hpool : PoolHolds env.hash64 workerCount (documentStrings env.hash64 document) pool)
    (hfixups : pool.fixupOffsets.Perm
      (refOffsets 0 (membersImage env.hash64 (nodesStart document) 0 document).2))
    (hsize : documentSize env.hash64 document < 2 ^ 64) :
    Yields (assemble env (UInt64.ofNat document.length)
      (sortedEntries env.hash64 (relative (collectedStrings document))
        (membersImage env.hash64 (nodesStart document) 0 document).1)
      { data := render (relative (collectedStrings document))
          (membersImage env.hash64 (nodesStart document) 0 document).2, capacity } pool)
      (.ok (documentFile env.hash64 document)) := by
  have hentries : pool.entries.length = (documentStrings env.hash64 document).length := by
    rw [hpool.entries, List.length_map]
  have hstart : nodesStart document = 128 + document.length * 24 := rfl
  have hstrings : stringsStart env.hash64 document = nodesStart document +
      imageWidth (membersImage env.hash64 (nodesStart document) 0 document).2 := rfl
  have hfooter : footerStart env.hash64 document = stringsStart env.hash64 document +
      (poolBytes (documentStrings env.hash64 document)).length := rfl
  have hend : documentSize env.hash64 document = footerStart env.hash64 document + 32 := rfl
  have hdelta : (UInt64.ofNat (stringsStart env.hash64 document)).toUInt32 =
      UInt32.ofNat (stringsStart env.hash64 document) := UInt64.toUInt32_ofNat' _
  -- the fixups turn relative references into addresses in the file
  have happly := applyFixups_yields (relative (collectedStrings document)) capacity hfixups
    (UInt64.ofNat (stringsStart env.hash64 document))
  have hrender : render (fun k => relative (collectedStrings document) k +
        (UInt64.ofNat (stringsStart env.hash64 document)).toUInt32)
        (membersImage env.hash64 (nodesStart document) 0 document).2 =
      render (documentAddress env.hash64 document)
        (membersImage env.hash64 (nodesStart document) 0 document).2 := by
    refine render_congr fun k hk => ?_
    rw [hdelta, relative_add (mem_documentStrings (List.mem_append_right _ hk))]
  rw [hrender] at happly
  -- the parts have the sizes and the places of the header
  have hfits : ({ documentHeader env.hash64 document with checksumXxh3 := 0 } : Header).Fits
      ((sortedEntries env.hash64 (relative (collectedStrings document))
        (membersImage env.hash64 (nodesStart document) 0 document).1).map
          (absoluteKey (UInt64.ofNat (stringsStart env.hash64 document))))
      (render (documentAddress env.hash64 document)
        (membersImage env.hash64 (nodesStart document) 0 document).2)
      (poolBytes (documentStrings env.hash64 document)) := by
    constructor
    · rw [List.length_map, sortedEntries, List.length_map, length_stableSort,
        length_membersImage]
      exact toNat_ofNat_of_lt64 (by omega)
    · rw [length_render]
      simp only [documentHeader, toNat_ofNat_of_lt64 (show nodesStart document < 2 ^ 64 by omega),
        toNat_ofNat_of_lt64 (show stringsStart env.hash64 document < 2 ^ 64 by omega)]
      exact hstrings
    · simp only [documentHeader,
        toNat_ofNat_of_lt64 (show stringsStart env.hash64 document < 2 ^ 64 by omega),
        toNat_ofNat_of_lt64 (show footerStart env.hash64 document < 2 ^ 64 by omega)]
      exact hfooter
    · simp only [documentHeader,
        toNat_ofNat_of_lt64 (show footerStart env.hash64 document < 2 ^ 64 by omega),
        toNat_ofNat_of_lt64 (show footerStart env.hash64 document + 32 < 2 ^ 64 by omega)]
  have hcopy := copyParts_yields hfits
  rw [rootIndex_eq _ hdelta] at hcopy
  -- the checksum is that of all between header and footer
  have hseal := sealOutput_yields env
    (show ({ documentHeader env.hash64 document with
        checksumXxh3 := 0 } : Header).footerOffset.toNat =
          128 + (documentPayload env.hash64 document).length by
      simp only [documentHeader,
        toNat_ofNat_of_lt64 (show footerStart env.hash64 document < 2 ^ 64 by omega)]
      rw [documentPayload]
      simp only [List.length_append, length_render, entriesImage, imageWidth_entries,
        length_stableSort, length_membersImage]
      omega)
    (show (List.replicate 32 (0 : UInt8)).length = 32 from List.length_replicate)
  rw [assemble, length_render, hpool.buffer, hentries, fileHeader_eq]
  exact happly.bind ((allocate_yields henv).bind (hcopy.bind hseal))

/-! ## Serialization -/

/-- The strings of a document start below 2^32, each where it is first used. -/
def DocumentFits (hash64 : Bytes → UInt64) (document : Document) : Prop :=
  UsesFit [] (membersUses document) ∧
    ([] ∈ documentRefs hash64 document → UsesFit (collectedStrings document) [[]])

/-- The counts of a document fit into 32 bits. -/
def Document.Narrow (document : Document) : Prop :=
  document.length < 2 ^ 32 ∧ membersNarrow document

/-- The entries of the root and of every block can be sorted with so many workers. -/
def Document.Sortable (workerCount : UInt64) (document : Document) : Prop :=
  Hrbl.Sortable workerCount document.length ∧ membersSortable workerCount document

/-- What the encoder asks of a document. -/
structure Document.Encodable (hash64 : Bytes → UInt64) (workerCount : UInt64)
    (document : Document) : Prop where
  narrow : document.Narrow
  sortable : document.Sortable workerCount
  fits : DocumentFits hash64 document
  size : documentSize hash64 document < 2 ^ 64

/-- What `emitRoots` does before the parts are put together. -/
def emitNodes (env : Env) (w : Writer) (heap : List Node) (pool : Pool) :
    AllocM (EncoderBuffer × Pool × List Entry) := do
  let nodes ← bufferInit env 4096
  let rootCount := w.rootCount.toUInt64
  let nodesOffset := rootIndexStart + rootCount * rootEntrySize
  allocateArray env rootCount
  emitMembers env heap (emitValue env heap nodesOffset (turnsOf heap)) rootCount.toNat w.rootFirst
    nodes pool

theorem emitRoots_eq (env : Env) (w : Writer) (heap : List Node) (pool : Pool) :
    emitRoots env w heap pool = emitNodes env w heap pool >>= fun (nodes, pool, rootEntries) =>
      assemble env w.rootCount.toUInt64 rootEntries nodes pool := by
  simp only [emitRoots, emitNodes, bind_assoc]

/-- There are levels for the trees of a writer. -/
theorem Stored.depth_le {env : Env} {w : Writer} {trees : List NodeTree} {document : Document}
    (h : Stored env w trees document) {heap : List Node} (hlength : heap.length = w.nodes.length) :
    (idsOf trees).length ≤ turnsOf heap := by
  have hle := length_le_of_nodup h.nodup h.siblings.lt_length
  rw [turnsOf, hlength]
  omega

theorem Stored.rootCount_eq {env : Env} {w : Writer} {trees : List NodeTree} {document : Document}
    (h : Stored env w trees document) (hnarrow : document.Narrow) :
    w.rootCount.toUInt64 = UInt64.ofNat document.length := by
  apply UInt64.toNat_inj.mp
  rw [UInt32.toNat_toUInt64, toNat_ofNat_of_lt64 (Nat.lt_trans hnarrow.1 (by omega)),
    h.ends.count_eq, h.denotes.length_eq]
  exact toNat_ofNat_of_lt hnarrow.1

section

variable {env : Env} (henv : env.Succeeds) {w : Writer} {trees : List NodeTree}
  {document : Document} (h : Stored env w trees document)

include henv h

theorem collectRoots_yields (hfit : UsesFit [] (membersUses document)) :
    ∃ heap pool, Yields (collectRoots env w) (.ok (heap, pool)) ∧
      PoolHolds env.hash64 w.options.workerCount (collectedStrings document) pool ∧
      pool.fixupOffsets = [] ∧
      Changed (Node.cached (collectedStrings document)) (idsOf trees) w.nodes heap := by
  obtain ⟨pool, hinit, hpool, hnone⟩ := poolInit_yields henv env.hash64 4096
  have hdepth := h.depth_le rfl
  obtain ⟨heap, pool', hwalk, hpool', hfixups, hchanged⟩ := collectChain_yields henv
    (S := collectedStrings document) h.denotes h.siblings h.nodup hdepth
    (h.siblings.length_le_turns h.nodup)
    (hpool.withWorkers w.options.workerCount) hfit List.prefix_rfl
  refine ⟨heap, pool', ?_, hpool', hfixups.trans hnone, hchanged⟩
  rw [collectRoots]
  refine (leaving_yields w.nodes hinit).bind ?_
  rw [h.ends.first_eq]
  exact hwalk

theorem collectRoots_overflow (hfit : ¬UsesFit [] (membersUses document)) :
    Overflows (collectRoots env w) := by
  obtain ⟨pool, hinit, hpool, -⟩ := poolInit_yields henv env.hash64 4096
  have hdepth := h.depth_le rfl
  obtain ⟨heap, hwalk⟩ := collectChain_overflow henv h.denotes h.siblings h.nodup hdepth
    (h.siblings.length_le_turns h.nodup) (hpool.withWorkers w.options.workerCount) hfit
  refine ⟨heap, ?_⟩
  rw [collectRoots]
  refine (leaving_yields w.nodes hinit).bind ?_
  rw [h.ends.first_eq]
  exact hwalk

/-- The nodes of a document after its strings have been collected, and its emission. -/
theorem emitNodes_yields {workerCount : UInt64} {heap : List Node} {pool : Pool}
    (hnarrow : document.Narrow) (hsortable : document.Sortable workerCount)
    (hroom : [] ∈ documentRefs env.hash64 document → UsesFit (collectedStrings document) [[]])
    (hpool : PoolHolds env.hash64 workerCount (collectedStrings document) pool)
    (hchanged : Changed (Node.cached (collectedStrings document)) (idsOf trees) w.nodes heap) :
    ∃ capacity pool' fixups, Yields (emitNodes env w heap pool) (.ok (
        { data := render (relative (collectedStrings document))
            (membersImage env.hash64 (nodesStart document) 0 document).2, capacity }, pool',
        sortedEntries env.hash64 (relative (collectedStrings document))
          (membersImage env.hash64 (nodesStart document) 0 document).1)) ∧
      PoolHolds env.hash64 workerCount (documentStrings env.hash64 document) pool' ∧
      pool'.fixupOffsets = pool.fixupOffsets ++ fixups ∧
      fixups.Perm (refOffsets 0 (membersImage env.hash64 (nodesStart document) 0 document).2) := by
  have hready : ReadyChain env workerCount (collectedStrings document) w.nodes heap trees document := {
    denotes := h.denotes
    siblings := ⟨none, h.siblings⟩
    nodup := h.nodup
    cached := hchanged.inside
    uses := fun u hu => mem_internAll.mpr (.inr hu)
    narrow := hnarrow.2
    sortable := hsortable.2 }
  have hcount := h.rootCount_eq hnarrow
  have hbase : rootIndexStart + UInt64.ofNat document.length * rootEntrySize =
      UInt64.ofNat (nodesStart document) := by
    rw [nodesStart, UInt64.ofNat_add, UInt64.ofNat_mul]
    rfl
  have hloop := emitMembersLoop_yields henv ⟨[], 4096⟩ [] document.length hready
    (h.depth_le hchanged.length_eq) hready.length_le_turns
    (by rw [hready.denotes.length_eq, List.length_nil, Nat.zero_add]) rfl (Nat.zero_le _)
    (.inl rfl) hpool hroom
  obtain ⟨capacity, pool', fixups, hemit, -, hpool', hfixups, hperm⟩ :=
    emitMembers_yields henv (length_membersImage _ _ _ _) hsortable.1 hloop
  have hinit : Yields (bufferInit env 4096) (.ok ⟨[], 4096⟩) :=
    (allocate_yields henv).bind (yields_pure _)
  refine ⟨capacity, pool', fixups, ?_, hpool', hfixups, hperm⟩
  rw [emitNodes]
  refine hinit.bind ?_
  simp only [hcount, hbase, h.ends.first_eq,
    toNat_ofNat_of_lt64 (Nat.lt_trans hnarrow.1 (by omega))]
  exact (allocateArray_yields henv _).bind hemit

variable (hdocument : document.Encodable env.hash64 w.options.workerCount)

include hdocument

theorem serializeToBuffer_yields :
    ∃ heap, Yields (serializeToBuffer env w) (.ok (heap, documentFile env.hash64 document)) := by
  obtain ⟨hnarrow, hsortable, hfit, hsize⟩ := hdocument
  obtain ⟨heap, pool, hcollect, hpool, hnone, hchanged⟩ := collectRoots_yields henv h hfit.1
  obtain ⟨capacity, pool', fixups, hemit, hpool', hfixups, hperm⟩ :=
    emitNodes_yields henv h hnarrow hsortable hfit.2 hpool hchanged
  have hfile := assemble_yields henv capacity hpool'
    (by rw [hfixups, hnone]; exact hperm) hsize
  have hroots : Yields (emitRoots env w heap pool) (.ok (documentFile env.hash64 document)) := by
    rw [emitRoots_eq, h.rootCount_eq hnarrow]
    exact hemit.bind hfile
  refine ⟨heap, ?_⟩
  rw [serializeToBuffer]
  exact hcollect.bind ((leaving_yields heap hroots).bind (yields_pure _))

/-- `finalize_to_buffer` returns the file of the document. -/
theorem finalizeToBuffer_returned :
    ∃ w', finalizeToBuffer env w = .returned (documentFile env.hash64 document) w' := by
  obtain ⟨heap, hyields⟩ := serializeToBuffer_yields henv h hdocument
  obtain ⟨calls, hrun⟩ := hyields w.calls
  refine ⟨{ w with nodes := heap, calls }, ?_⟩
  rw [finalizeToBuffer, h.valid, h.closed, hrun]
  rfl

end

/-! ## Small files -/

theorem length_poolBytes_mono {strings S : List Bytes} (h : strings <+: S) :
    (poolBytes strings).length ≤ (poolBytes S).length := by
  obtain ⟨more, rfl⟩ := h
  rw [poolBytes_append, List.length_append]
  exact Nat.le_add_right _ _

theorem usesFit_of_length {strings uses : List Bytes}
    (h : (poolBytes (internAll strings uses)).length ≤ lengthMax) : UsesFit strings uses := by
  induction uses generalizing strings with
  | nil => trivial
  | cons s uses ih =>
    exact ⟨fun _ => (length_poolBytes_mono (prefix_internAll strings (s :: uses))).trans h, ih h⟩

mutual

theorem narrow_of_width (hash64 : Bytes → UInt64) (base : Nat) : ∀ {value : Value} (pos : Nat),
    imageWidth (valueImage hash64 base pos value) < 2 ^ 32 → value.Narrow
  | .scalar _, _, _ => trivial
  | .block members, pos, h => by
    rw [valueImage_block, imageWidth_cons, imageWidth_append, entriesImage, imageWidth_entries,
      length_stableSort, length_membersImage] at h
    exact ⟨by omega, membersNarrow_of_width hash64 base (blockStart pos members.length)
      (Nat.lt_of_le_of_lt (by omega) h)⟩
  | .array elements, pos, h => by
    rw [valueImage_array, imageWidth_cons, Chunk.width, List.length_append,
      length_flatMap_le64, length_elementsImage] at h
    exact ⟨by omega, elementsNarrow_of_width hash64 base (arrayStart pos elements.length)
      (Nat.lt_of_le_of_lt (by omega) h)⟩

theorem membersNarrow_of_width (hash64 : Bytes → UInt64) (base : Nat) :
    ∀ {members : List (Bytes × Value)} (pos : Nat),
      imageWidth (membersImage hash64 base pos members).2 < 2 ^ 32 → membersNarrow members
  | [], _, _ => trivial
  | (key, value) :: members, pos, h => by
    rw [membersImage_cons, imageWidth_append] at h
    exact ⟨narrow_of_width hash64 base _ (Nat.lt_of_le_of_lt (Nat.le_add_right _ _) h),
      membersNarrow_of_width hash64 base _ (Nat.lt_of_le_of_lt (Nat.le_add_left _ _) h)⟩

theorem elementsNarrow_of_width (hash64 : Bytes → UInt64) (base : Nat) :
    ∀ {elements : List Value} (pos : Nat),
      imageWidth (elementsImage hash64 base pos elements).2 < 2 ^ 32 → elementsNarrow elements
  | [], _, _ => trivial
  | value :: elements, pos, h => by
    have hsplit : imageWidth (valueImage hash64 base pos value ++
        (elementsImage hash64 base (pos + imageWidth (valueImage hash64 base pos value))
          elements).2) < 2 ^ 32 := h
    rw [imageWidth_append] at hsplit
    exact ⟨narrow_of_width hash64 base _ (Nat.lt_of_le_of_lt (Nat.le_add_right _ _) hsplit),
      elementsNarrow_of_width hash64 base _ (Nat.lt_of_le_of_lt (Nat.le_add_left _ _) hsplit)⟩

end

/-- A file below 2^32 bytes has narrow counts, and room for its strings. -/
theorem narrow_and_fits_of_size {hash64 : Bytes → UInt64} {document : Document}
    (h : documentSize hash64 document < 2 ^ 32) :
    document.Narrow ∧ DocumentFits hash64 document := by
  have hstart : nodesStart document = 128 + document.length * 24 := rfl
  have hstrings : stringsStart hash64 document = nodesStart document +
      imageWidth (membersImage hash64 (nodesStart document) 0 document).2 := rfl
  have hfooter : footerStart hash64 document = stringsStart hash64 document +
      (poolBytes (documentStrings hash64 document)).length := rfl
  have hend : documentSize hash64 document = footerStart hash64 document + 32 := rfl
  have hpool : (poolBytes (documentStrings hash64 document)).length ≤ lengthMax := by
    simp only [lengthMax]
    omega
  have hcollected : collectedStrings document <+: documentStrings hash64 document := by
    rw [documentStrings_eq]
    rcases withEmpty_cases (collectedStrings document) (documentRefs hash64 document) with
      heq | heq
    · rw [heq]
    · rw [heq]
      exact prefix_internString _ _
  refine ⟨⟨by omega, membersNarrow_of_width hash64 (nodesStart document) 0 (by omega)⟩, ?_,
    fun _ => ?_⟩
  · exact usesFit_of_length ((length_poolBytes_mono hcollected).trans hpool)
  · exact ⟨fun _ => (length_poolBytes_mono hcollected).trans hpool, trivial⟩

theorem encodable_of_size {hash64 : Bytes → UInt64} {workerCount : UInt64} {document : Document}
    (h : documentSize hash64 document < 2 ^ 32) (hsortable : document.Sortable workerCount) :
    document.Encodable hash64 workerCount := by
  obtain ⟨hnarrow, hfit⟩ := narrow_and_fits_of_size h
  exact ⟨hnarrow, hsortable, hfit, h.trans (by omega)⟩

theorem WorkersFit.document {workerCount : UInt64} (h : WorkersFit workerCount)
    (document : Document) : document.Sortable workerCount := ⟨.inr h, h.members document⟩

end Hrbl
