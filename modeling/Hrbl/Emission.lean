import Hrbl.Collection

/-!
# Emission

The emitting functions append the images of the layout, with references relative to the
pool, and record where these are. A string that is in the pool already is not used again,
so the only one that can be new is the empty string, when it is a key.
-/

namespace Hrbl

open Lib NodeTree

variable {workerCount : UInt64}

/-! ## Relative addresses -/

/-- The offset of a string in a pool of the collected strings, which the empty string may
join. -/
def relative (C : List Bytes) (s : Bytes) : UInt32 :=
  UInt32.ofNat (poolOffsetOf (internString C []) s)

/-- The strings of the pool while nodes are emitted. -/
def Late (C strings : List Bytes) : Prop := strings = C ∨ strings = internString C []

theorem relative_of_mem {C : List Bytes} {s : Bytes} (h : s ∈ C) :
    relative C s = UInt32.ofNat (poolOffsetOf C s) := by
  rw [relative, poolOffsetOf_prefix (prefix_internString C []) h]

/-- An offset in a pool is not the mark of an unknown one. -/
theorem offset_ne_none (strings : List Bytes) (s : Bytes) :
    UInt32.ofNat (poolOffsetOf strings s) ≠ poolOffsetNone := by
  intro heq
  obtain ⟨k, hk⟩ := dvd_poolOffsetOf strings s
  have hnat := congrArg UInt32.toNat heq
  rw [UInt32.toNat_ofNat', hk] at hnat
  change 4 * k % 2 ^ 32 = 4294967295 at hnat
  omega

theorem Late.internString_eq {C strings : List Bytes} (h : Late C strings) :
    internString strings [] = internString C [] := by
  rcases h with rfl | rfl
  · rfl
  · exact internString_of_mem (mem_internString C [])

theorem Late.subset {C strings : List Bytes} (h : Late C strings) {s : Bytes} (hs : s ∈ C) :
    s ∈ strings := by
  rcases h with rfl | rfl
  · exact hs
  · exact (prefix_internString C []).subset hs

theorem Late.withEmpty {C strings : List Bytes} (h : Late C strings) (refs : List Bytes) :
    Late C (withEmpty strings refs) := by
  rcases withEmpty_cases strings refs with heq | heq <;> rw [heq]
  · exact h
  · exact .inr h.internString_eq

/-- There is room for the empty string all along. -/
theorem Late.usesFit {C strings : List Bytes} (h : Late C strings) (hroom : UsesFit C [[]]) :
    UsesFit strings [[]] := by
  rcases h with rfl | rfl
  · exact hroom
  · exact ⟨fun hnot => absurd (mem_internString C []) hnot, trivial⟩

section

variable {env : Env} {C strings : List Bytes} {pool : Pool}

/-- The use of an empty key. -/
theorem intern_empty (henv : env.Succeeds) (hpool : PoolHolds env.hash64 workerCount strings pool)
    (hlate : Late C strings) (hroom : UsesFit C [[]]) :
    ∃ pool', Yields (internWithHash env pool [] (env.hash64 [])) (.ok (pool', relative C [])) ∧
      PoolHolds env.hash64 workerCount (internString strings []) pool' ∧
      pool'.fixupOffsets = pool.fixupOffsets := by
  obtain ⟨pool', hyields, hpool', hfixups⟩ := internWithHash_yields henv hpool
    (show ([] : Bytes).length ≤ lengthMax from Nat.zero_le _)
    (by rw [hpool.buffer]; exact (hlate.usesFit hroom).1)
  rw [hlate.internString_eq] at hyields
  exact ⟨pool', hyields, hpool', hfixups⟩

end

/-! ## Buffers of images -/

/-- What a part of the emission does: the image goes behind the nodes, the pool has been
asked for these strings, and the references are among the fixups. -/
def Emits (env : Env) (workerCount : UInt64) (C strings refs : List Bytes)
    (image : List (Chunk Bytes)) (nodes : EncoderBuffer) (pool : Pool) {α : Type} (a : α)
    (m : AllocM (EncoderBuffer × Pool × α)) : Prop :=
  ∃ capacity pool' fixups,
    Yields m (.ok ({ data := nodes.data ++ render (relative C) image, capacity }, pool', a)) ∧
    (nodes.data ++ render (relative C) image).length ≤ capacity ∧
    PoolHolds env.hash64 workerCount (withEmpty strings refs) pool' ∧
    pool'.fixupOffsets = pool.fixupOffsets ++ fixups ∧
    fixups.Perm (refOffsets nodes.data.length image)

section

variable {env : Env} {C strings refs more : List Bytes} {image rest : List (Chunk Bytes)}
  {nodes : EncoderBuffer} {pool : Pool} {α β : Type} {a : α} {b : β}

/-- Something else may be computed before. -/
theorem Emits.after {γ : Type} {m : AllocM γ} {c : γ} {f : γ → AllocM (EncoderBuffer × Pool × α)}
    (hm : Yields m (.ok c)) (h : Emits env workerCount C strings refs image nodes pool a (f c)) :
    Emits env workerCount C strings refs image nodes pool a (m >>= f) := by
  obtain ⟨capacity, pool', fixups, hyields, hrest⟩ := h
  exact ⟨capacity, pool', fixups, hm.bind hyields, hrest⟩

/-- One part after the other. -/
theorem Emits.bind {m : AllocM (EncoderBuffer × Pool × α)}
    {f : EncoderBuffer × Pool × α → AllocM (EncoderBuffer × Pool × β)}
    (h : Emits env workerCount C strings refs image nodes pool a m)
    (hf : ∀ (capacity : Nat) (pool' : Pool),
      (nodes.data ++ render (relative C) image).length ≤ capacity →
      PoolHolds env.hash64 workerCount (withEmpty strings refs) pool' →
      Emits env workerCount C (withEmpty strings refs) more rest
        { data := nodes.data ++ render (relative C) image, capacity } pool' b
        (f ({ data := nodes.data ++ render (relative C) image, capacity }, pool', a))) :
    Emits env workerCount C strings (refs ++ more) (image ++ rest) nodes pool b (m >>= f) := by
  obtain ⟨c₁, pool₁, fixups₁, h₁, hc₁, hpool₁, hfix₁, hperm₁⟩ := h
  obtain ⟨c₂, pool₂, fixups₂, h₂, hc₂, hpool₂, hfix₂, hperm₂⟩ := hf c₁ pool₁ hc₁ hpool₁
  rw [← withEmpty_append] at hpool₂
  rw [Emits, render_append, ← List.append_assoc]
  refine ⟨c₂, pool₂, fixups₁ ++ fixups₂, h₁.bind h₂, hc₂, hpool₂, ?_, ?_⟩
  · rw [hfix₂, hfix₁, List.append_assoc]
  · rw [refOffsets_append]
    rw [List.length_append, length_render] at hperm₂
    exact hperm₁.append hperm₂

/-- Of the strings asked for, only the empty one matters. -/
theorem Emits.congr {m : AllocM (EncoderBuffer × Pool × α)}
    (h : Emits env workerCount C strings refs image nodes pool a m) (hrefs : [] ∈ more ↔ [] ∈ refs) :
    Emits env workerCount C strings more image nodes pool a m := by
  rwa [Emits, withEmpty_congr hrefs]

/-- A part that emits nothing. -/
theorem Emits.pure (hroom : nodes.data.length ≤ nodes.capacity)
    (hpool : PoolHolds env.hash64 workerCount strings pool) :
    Emits env workerCount C strings [] [] nodes pool a (Pure.pure (nodes, pool, a)) := by
  rw [Emits, render, List.append_nil]
  exact ⟨nodes.capacity, pool, [], yields_pure _, hroom, hpool, (List.append_nil _).symm,
    List.Perm.refl _⟩

end

theorem lt_kindOffset_add {align : Nat} (halign : 0 < align) (pos : Nat) :
    pos ≤ kindOffset pos align := by
  have hle := le_alignUpNat halign (pos + 1)
  rw [kindOffset]
  omega

theorem length_kindImage {align : Nat} (halign : 0 < align) (pos : Nat) (kind : Kind) :
    pos + (kindImage pos kind align).length = kindOffset pos align + 1 := by
  have hle := lt_kindOffset_add halign pos
  simp only [kindImage, List.length_append, List.length_replicate, List.length_singleton]
  omega

theorem Kind.bodyAlign_pos (kind : Kind) : 0 < kind.bodyAlign := by
  cases kind <;> decide

section

variable {env : Env} (henv : env.Succeeds)

include henv

theorem emitKind_yields (nodes : EncoderBuffer) (kind : Kind) (align : Nat) :
    ∃ capacity, (nodes.data ++ kindImage nodes.data.length kind align).length ≤ capacity ∧
      Yields (emitKind env nodes kind align)
        (.ok ({ data := nodes.data ++ kindImage nodes.data.length kind align, capacity },
          kindOffset nodes.data.length align)) := by
  have hpad : ∃ capacity, Yields
      (if kindOffset nodes.data.length align > nodes.data.length then
        bufferAppendZero env nodes (kindOffset nodes.data.length align - nodes.data.length)
      else return nodes)
      (.ok { data := nodes.data ++
        List.replicate (kindOffset nodes.data.length align - nodes.data.length) 0, capacity }) := by
    by_cases hgt : kindOffset nodes.data.length align > nodes.data.length
    · rw [if_pos hgt]
      obtain ⟨capacity, -, h⟩ := bufferAppend_yields henv nodes
        (List.replicate (kindOffset nodes.data.length align - nodes.data.length) 0)
      exact ⟨capacity, h⟩
    · rw [if_neg hgt, Nat.sub_eq_zero_of_le (Nat.le_of_not_gt hgt), List.replicate_zero,
        List.append_nil]
      exact ⟨nodes.capacity, yields_pure _⟩
  obtain ⟨c₁, h₁⟩ := hpad
  obtain ⟨c₂, hc₂, h₂⟩ := bufferAppend_yields henv
    { data := nodes.data ++
        List.replicate (kindOffset nodes.data.length align - nodes.data.length) 0
      capacity := c₁ } [kind.byte]
  refine ⟨c₂, ?_, ?_⟩
  · rwa [kindImage, ← List.append_assoc]
  · rw [kindImage, ← List.append_assoc]
    exact h₁.bind (h₂.bind (yields_pure _))

/-! ## Scalars -/

/-- The reference to a string that has been collected. -/
theorem emitStringRef_yields {C : List Bytes} {value : Bytes} {node : Node}
    (hpayload : node.HoldsPayload (.string value)) (hvalue : value ∈ C)
    (hcached : node.cachedStringPoolOffset = UInt32.ofNat (poolOffsetOf C value))
    (nodes : EncoderBuffer) (pool : Pool) :
    ∃ capacity fixupCapacity, Yields (emitStringRef env nodes pool node) (.ok (
        { data := nodes.data ++ render (relative C) (Scalar.image (.string value)), capacity },
        { pool with
          fixupCapacity, fixupOffsets := pool.fixupOffsets ++ [nodes.data.length] })) ∧
      (nodes.data ++ render (relative C) (Scalar.image (.string value))).length ≤ capacity := by
  obtain ⟨hlen, hdata, hlength⟩ := hpayload
  have himage : render (relative C) (Scalar.image (.string value)) =
      le32 (UInt32.ofNat (poolOffsetOf C value)) ++ le32 (UInt32.ofNat value.length) := by
    rw [Scalar.image, render, render, render, List.append_nil, relative_of_mem hvalue]
    rfl
  obtain ⟨capacity, hle, hbuffer⟩ := bufferAppend_yields henv nodes
    (le32 (UInt32.ofNat (poolOffsetOf C value)) ++ le32 (UInt32.ofNat value.length))
  obtain ⟨fixupCapacity, hfixup⟩ := recordFixup_yields henv pool nodes.data.length
  refine ⟨capacity, fixupCapacity, ?_, by rwa [himage]⟩
  rw [emitStringRef, hdata, hlength, hcached, himage]
  refine (pointedBytes_yields hlen).bind ?_
  rw [if_neg (offset_ne_none C value)]
  exact (yields_pure _).bind (hbuffer.bind (hfixup.bind (yields_pure _)))

/-- What the emission of the body of a scalar does. -/
def EmitsBody (env : Env) (workerCount : UInt64) (C strings : List Bytes)
    (image : List (Chunk Bytes)) (nodes : EncoderBuffer) (pool : Pool)
    (m : AllocM (EncoderBuffer × Pool)) : Prop :=
  ∃ capacity pool',
    Yields m (.ok ({ data := nodes.data ++ render (relative C) image, capacity }, pool')) ∧
    (nodes.data ++ render (relative C) image).length ≤ capacity ∧
    PoolHolds env.hash64 workerCount strings pool' ∧
    pool'.fixupOffsets = pool.fixupOffsets ++ refOffsets nodes.data.length image

theorem emitBody_yields {C strings : List Bytes} {s : Scalar} {node : Node}
    (hkind : node.kind = s.kind) (hpayload : node.HoldsPayload s) (huses : ∀ u ∈ s.uses, u ∈ C)
    (nodes : EncoderBuffer) {pool : Pool} (hroom : nodes.data.length ≤ nodes.capacity)
    (hpool : PoolHolds env.hash64 workerCount strings pool) :
    EmitsBody env workerCount C strings s.image nodes pool (emitBody env nodes pool (node.cached C)) := by
  have hpayload' := hpayload.cached C
  have hkind' : (node.cached C).kind = s.kind := (Node.cached_kind C node).trans hkind
  have hempty : EmitsBody env workerCount C strings [] nodes pool (pure (nodes, pool)) := by
    rw [EmitsBody, render, refOffsets, List.append_nil, List.append_nil]
    exact ⟨_, pool, yields_pure _, hroom, hpool, rfl⟩
  have hword : ∀ bytes, EmitsBody env workerCount C strings [.raw bytes] nodes pool (do
      let nodes ← bufferAppend env nodes bytes
      return (nodes, pool)) := by
    intro bytes
    obtain ⟨capacity, hle, h⟩ := bufferAppend_yields henv nodes bytes
    rw [EmitsBody, render, render, refOffsets, refOffsets, List.append_nil, List.append_nil]
    exact ⟨capacity, pool, h.bind (yields_pure _), hle, hpool, rfl⟩
  rw [emitBody, hkind']
  cases s with
  | null => exact hempty
  | bool value => cases value <;> exact hempty
  | int64 value => exact (show _ = value from hpayload') ▸ hword _
  | uint64 value => exact (show _ = value from hpayload') ▸ hword _
  | float64 bits => exact (show _ = bits from hpayload') ▸ hword _
  | string value =>
    obtain ⟨capacity, fixupCapacity, h, hle⟩ := emitStringRef_yields henv hpayload'
      (huses value (List.mem_singleton.mpr rfl)) (Node.cached_string hkind hpayload C) nodes pool
    exact ⟨capacity, _, h, hle, hpool.fixups _ _, rfl⟩

/-- The image of a scalar. -/
theorem emitScalar_yields {C strings : List Bytes} {s : Scalar} {node : Node} (base : Nat)
    (hkind : node.kind = s.kind) (hpayload : node.HoldsPayload s) (huses : ∀ u ∈ s.uses, u ∈ C)
    (nodes : EncoderBuffer) {pool : Pool} (hlate : Late C strings)
    (hpool : PoolHolds env.hash64 workerCount strings pool) :
    Emits env workerCount C strings (refTargets (valueImage env.hash64 base nodes.data.length (.scalar s)))
      (valueImage env.hash64 base nodes.data.length (.scalar s)) nodes pool
      (UInt64.ofNat (base + kindOffset nodes.data.length s.kind.bodyAlign))
      (emitScalar env (UInt64.ofNat base) nodes pool (node.cached C)) := by
  obtain ⟨c₁, hc₁, h₁⟩ := emitKind_yields henv nodes s.kind s.kind.bodyAlign
  obtain ⟨c₂, pool', h₂, hc₂, hpool', hfixups⟩ := emitBody_yields henv hkind hpayload huses
    { data := nodes.data ++ kindImage nodes.data.length s.kind s.kind.bodyAlign, capacity := c₁ }
    hc₁ hpool
  have hstrings : withEmpty strings
      (refTargets (valueImage env.hash64 base nodes.data.length (.scalar s))) = strings := by
    have htargets : ∀ u ∈ refTargets s.image, u ∈ s.uses := by
      cases s <;> exact fun u hu => hu
    by_cases hin : [] ∈ refTargets s.image
    · exact (if_pos hin).trans (internString_of_mem (hlate.subset (huses _ (htargets _ hin))))
    · exact if_neg hin
  rw [valueImage] at hstrings ⊢
  rw [Emits, hstrings]
  simp only [render, ← List.append_assoc]
  refine ⟨c₂, pool', _, ?_, hc₂, hpool', hfixups, ?_⟩
  · rw [emitScalar, Node.cached_kind, hkind, UInt64.ofNat_add]
    exact h₁.bind (h₂.bind (yields_pure _))
  · rw [refOffsets, List.length_append]

/-! ## Members -/

omit henv in
/-- The hash of the key of a member, also of an empty one. -/
theorem memberHash_cached {C : List Bytes} {node : Node} {key : Bytes}
    (hkey : node.HoldsKey env.hash64 key) : memberHash env (node.cached C) key = env.hash64 key := by
  rw [memberHash, Node.cached_keyData, Node.cached_keyHash64, hkey.data]
  by_cases hempty : key = []
  · rw [hempty]
    rfl
  · rw [cloned, if_neg fun h => hempty (List.length_eq_zero_iff.mp h)]
    exact hkey.hash hempty

/-- The key of a member: only an empty one is used here. -/
theorem emitKey_yields {C strings : List Bytes} {node : Node} {key : Bytes} {pool : Pool}
    (hkey : node.HoldsKey env.hash64 key) (hmem : key ≠ [] → key ∈ C)
    (hroom : key = [] → UsesFit C [[]]) (hlate : Late C strings)
    (hpool : PoolHolds env.hash64 workerCount strings pool) :
    ∃ pool', Yields (emitKey env (node.cached C) pool)
        (.ok (pool', { entryWith env.hash64 (relative C) (key, 0) with valueOffset := 0 })) ∧
      PoolHolds env.hash64 workerCount (withEmpty strings [key]) pool' ∧
      pool'.fixupOffsets = pool.fixupOffsets := by
  have hhash : memberHash env (node.cached C) key = env.hash64 key := memberHash_cached hkey
  rw [emitKey, Node.cached_keyData, Node.cached_keyLength, hkey.data, hkey.length,
    Node.cached_key hkey]
  by_cases hempty : key = []
  · subst hempty
    obtain ⟨pool', hyields, hpool', hfixups⟩ := intern_empty henv hpool hlate (hroom rfl)
    refine ⟨pool', (pointedBytes_yields hkey.length_le).bind ?_, ?_, hfixups⟩
    · rw [if_pos rfl, if_pos rfl, hhash]
      exact hyields.bind (yields_pure _)
    · rwa [withEmpty, if_pos (List.mem_singleton.mpr rfl)]
  · refine ⟨pool, (pointedBytes_yields hkey.length_le).bind ?_, ?_, rfl⟩
    · rw [if_neg hempty, if_neg (offset_ne_none C key), hhash, ← relative_of_mem (hmem hempty)]
      exact (yields_pure _).bind (yields_pure _)
    · rwa [withEmpty, if_neg fun h => hempty (List.mem_singleton.mp h).symm]

/-- The key of a member, and then its value. -/
theorem emitMember_yields {C strings : List Bytes} {emitChild : EmitChild} (id : NodeId)
    {node : Node} {key : Bytes} {offset : Nat} {image : List (Chunk Bytes)}
    (nodes : EncoderBuffer) {pool : Pool} (hkey : node.HoldsKey env.hash64 key)
    (hmem : key ≠ [] → key ∈ C) (hroom : key = [] → UsesFit C [[]]) (hlate : Late C strings)
    (hpool : PoolHolds env.hash64 workerCount strings pool)
    (hchild : ∀ (pool : Pool) (strings : List Bytes), Late C strings →
      PoolHolds env.hash64 workerCount strings pool → Emits env workerCount C strings (refTargets image) image nodes pool
        (UInt64.ofNat offset) (emitChild id nodes pool)) :
    Emits env workerCount C strings (key :: refTargets image) image nodes pool
      (entryWith env.hash64 (relative C) (key, offset))
      (emitMember env emitChild id (node.cached C) nodes pool) := by
  obtain ⟨pool₁, h₁, hpool₁, hfix₁⟩ := emitKey_yields henv hkey hmem hroom hlate hpool
  obtain ⟨c, pool₂, fixups, h₂, hc, hpool₂, hfix₂, hperm⟩ := hchild pool₁ _
    (hlate.withEmpty [key]) hpool₁
  refine ⟨c, pool₂, fixups, h₁.bind (h₂.bind (yields_pure _)), hc, ?_, by rw [hfix₂, hfix₁], hperm⟩
  rwa [← withEmpty_append] at hpool₂

omit henv in
/-- A store over bytes that are there. -/
theorem storeAt_yields {pre hole post bytes : Bytes} {capacity : Nat}
    (hlen : bytes.length = hole.length) (hroom : (pre ++ hole ++ post).length ≤ capacity) :
    Yields (storeAt { data := pre ++ hole ++ post, capacity } pre.length bytes)
      (.ok { data := pre ++ bytes ++ post, capacity }) := by
  have hfits : pre.length + bytes.length ≤ capacity := by
    rw [List.length_append, List.length_append] at hroom
    omega
  have hsame : (pre ++ hole ++ post).length = (pre ++ bytes ++ post).length := by
    simp only [List.length_append, hlen]
  rw [storeAt, if_pos hfits, overwrite_append pre hole post bytes hlen, hsame, List.take_length]
  exact yields_pure _

/-- The entries stored over their table, and their fixups. -/
theorem storeEntries_yields {C strings : List Bytes} :
    ∀ (members : List (Bytes × Nat)) (pre hole post : Bytes) {capacity : Nat} {pool : Pool},
      hole.length = members.length * 24 → (pre ++ hole ++ post).length ≤ capacity →
      PoolHolds env.hash64 workerCount strings pool →
      ∃ pool', Yields
          (storeEntries env (members.map (entryWith env.hash64 (relative C))) pre.length
            { data := pre ++ hole ++ post, capacity } pool)
          (.ok ({
            data := pre ++ render (relative C) (members.flatMap (entryImage env.hash64)) ++ post
            capacity }, pool')) ∧
        PoolHolds env.hash64 workerCount strings pool' ∧
        pool'.fixupOffsets = pool.fixupOffsets ++
          refOffsets pre.length (members.flatMap (entryImage env.hash64))
  | [], pre, hole, post, capacity, pool, hhole, _, hpool => by
    obtain rfl : hole = [] := List.length_eq_zero_iff.mp (hhole.trans (Nat.zero_mul 24))
    exact ⟨pool, yields_pure _, hpool, (List.append_nil _).symm⟩
  | m :: members, pre, hole, post, capacity, pool, hhole, hroom, hpool => by
    rw [List.length_cons] at hhole
    have hsplit : pre ++ hole ++ post = pre ++ hole.take 24 ++ (hole.drop 24 ++ post) := by
      rw [List.append_assoc, List.append_assoc, ← List.append_assoc (hole.take 24),
        List.take_append_drop]
    have hentry : (entryWith env.hash64 (relative C) m).encode.length = (hole.take 24).length := by
      rw [Entry.length_encode, List.length_take]
      omega
    have hlen : (pre ++ (entryWith env.hash64 (relative C) m).encode).length = pre.length + 24 := by
      rw [List.length_append, Entry.length_encode]
    have hroom' : (pre ++ (entryWith env.hash64 (relative C) m).encode ++ hole.drop 24 ++
        post).length ≤ capacity := by
      rw [hsplit] at hroom
      simp only [List.length_append, hentry] at hroom ⊢
      omega
    obtain ⟨fixupCapacity, hfixup⟩ := recordFixup_yields henv pool (pre.length + 8)
    obtain ⟨pool', hyields, hpool', hfixups⟩ := storeEntries_yields members _
      (hole.drop 24) post (by rw [List.length_drop]; omega) hroom'
      (hpool.fixups (pool.fixupOffsets ++ [pre.length + 8]) fixupCapacity)
    refine ⟨pool', ?_, hpool', ?_⟩
    · rw [List.map_cons, storeEntries, hsplit]
      rw [hlen, List.append_assoc _ (hole.drop 24)] at hyields
      rw [List.flatMap_cons, render_append, render_entryImage]
      refine (storeAt_yields hentry (hsplit ▸ hroom)).bind (hfixup.bind ?_)
      simpa only [List.append_assoc] using hyields
    · rw [hfixups, hlen, List.flatMap_cons, refOffsets_append, imageWidth_entryImage,
        List.append_assoc]
      rfl

/-! ## Containers -/

/-- The entries of the members, sorted. -/
def sortedEntries (hash64 : Bytes → UInt64) (addr : Bytes → UInt32)
    (offsets : List (Bytes × Nat)) : List Entry :=
  (stableSort (fun m => (hash64 m.1).toNat) offsets).map (entryWith hash64 addr)

/-- After the loop over the members, the sort. -/
theorem emitMembers_yields {C strings refs : List Bytes} {image : List (Chunk Bytes)}
    {heap : List Node} {emitChild : EmitChild} {first : Option NodeId} {count : Nat}
    {offsets : List (Bytes × Nat)} {nodes : EncoderBuffer} {pool : Pool}
    (hcount : offsets.length = count) (hsortable : Sortable workerCount count)
    (hloop : Emits env workerCount C strings refs image nodes pool
      (offsets.map (entryWith env.hash64 (relative C)))
      (forSiblingsIn heap (memberTurn env emitChild count) (turnsOf heap) first
        (nodes, pool, []))) :
    Emits env workerCount C strings refs image nodes pool (sortedEntries env.hash64 (relative C) offsets)
      (emitMembers env heap emitChild count first nodes pool) := by
  obtain ⟨c, pool', fixups, h, hcapacity, hpool', hrest⟩ := hloop
  refine ⟨c, pool', fixups, h.bind ?_, hcapacity, hpool', hrest⟩
  simp only [List.length_map, hcount, Nat.lt_irrefl, if_false]
  rw [hpool'.workers]
  refine (pendingSort_yields henv ?_).bind ?_
  · rwa [List.length_map, hcount]
  rw [stableSort_map, sortedEntries]
  exact yields_pure _

/-- The first lines of the two containers: the kind byte, the header, and room for a table. -/
theorem emitContainer_yields (nodes : EncoderBuffer) (kind : Kind) (header : Bytes) (size : Nat) :
    ∃ c₁ c₂ c₃ c₄, Yields (emitKind env nodes kind 8)
        (.ok ({ data := nodes.data ++ kindImage nodes.data.length kind 8, capacity := c₁ },
          kindOffset nodes.data.length 8)) ∧
      Yields (bufferAlignTo env
          { data := nodes.data ++ kindImage nodes.data.length kind 8, capacity := c₁ } 8)
        (.ok { data := nodes.data ++ kindImage nodes.data.length kind 8, capacity := c₂ }) ∧
      Yields (bufferAppend env
          { data := nodes.data ++ kindImage nodes.data.length kind 8, capacity := c₂ } header)
        (.ok { data := nodes.data ++ (kindImage nodes.data.length kind 8 ++ header),
               capacity := c₃ }) ∧
      Yields (bufferAppendZero env
          { data := nodes.data ++ (kindImage nodes.data.length kind 8 ++ header),
            capacity := c₃ } size)
        (.ok { data := nodes.data ++ (kindImage nodes.data.length kind 8 ++ header) ++
                 List.replicate size 0, capacity := c₄ }) ∧
      (nodes.data ++ (kindImage nodes.data.length kind 8 ++ header) ++
        List.replicate size 0).length ≤ c₄ := by
  obtain ⟨c₁, hc₁, h₁⟩ := emitKind_yields henv nodes kind 8
  obtain ⟨c₂, -, h₂⟩ := bufferAlignTo_yields henv
    (b := { data := nodes.data ++ kindImage nodes.data.length kind 8, capacity := c₁ }) hc₁ 8
  have haligned : alignUpNat (nodes.data ++ kindImage nodes.data.length kind 8).length 8 =
      (nodes.data ++ kindImage nodes.data.length kind 8).length := by
    rw [List.length_append, length_kindImage (by omega), kindOffset, Nat.sub_add_cancel]
    · exact alignUpNat_of_dvd (by omega) (dvd_alignUpNat 8 _)
    · have hle := le_alignUpNat (show 0 < 8 by omega) (nodes.data.length + 1)
      omega
  simp only [haligned, Nat.sub_self, List.replicate_zero, List.append_nil] at h₂
  obtain ⟨c₃, -, h₃⟩ := bufferAppend_yields henv
    { data := nodes.data ++ kindImage nodes.data.length kind 8, capacity := c₂ } header
  rw [List.append_assoc] at h₃
  obtain ⟨c₄, hc₄, h₄⟩ := bufferAppend_yields henv
    { data := nodes.data ++ (kindImage nodes.data.length kind 8 ++ header), capacity := c₃ }
    (List.replicate size 0)
  exact ⟨c₁, c₂, c₃, c₄, h₁, h₂, h₃, h₄, hc₄⟩

theorem allocateArray_yields (count : UInt64) : Yields (allocateArray env count) (.ok ()) := by
  unfold allocateArray
  split
  · exact allocate_yields henv
  · exact yields_pure _

omit henv in
theorem toNat_ofNat_of_lt {n : Nat} (h : n < 2 ^ 32) : (UInt32.ofNat n).toNat = n := by
  rw [UInt32.toNat_ofNat', Nat.mod_eq_of_lt h]

/-- A block around its members. -/
theorem emitBlock_yields {C strings : List Bytes} {base : Nat} {heap : List Node}
    {emitChild : EmitChild} {node : Node} {members : List (Bytes × Value)}
    {nodes : EncoderBuffer} {pool : Pool}
    (hcount : node.childCount = UInt32.ofNat members.length) (hnarrow : members.length < 2 ^ 32)
    (hsortable : Sortable workerCount members.length)
    (hloop : ∀ (start : EncoderBuffer),
      start.data.length = blockStart nodes.data.length members.length →
      start.data.length ≤ start.capacity →
      Emits env workerCount C strings (members.map Prod.fst ++
          refTargets (membersImage env.hash64 base start.data.length members).2)
        (membersImage env.hash64 base start.data.length members).2 start pool
        ((membersImage env.hash64 base start.data.length members).1.map
          (entryWith env.hash64 (relative C)))
        (forSiblingsIn heap (memberTurn env emitChild members.length) (turnsOf heap)
          node.firstChild (start, pool, []))) :
    Emits env workerCount C strings
      (refTargets (valueImage env.hash64 base nodes.data.length (.block members)))
      (valueImage env.hash64 base nodes.data.length (.block members)) nodes pool
      (UInt64.ofNat (base + kindOffset nodes.data.length 8))
      (emitBlock env heap (UInt64.ofNat base) emitChild nodes pool (node.cached C)) := by
  have hheader : le32 node.childCount ++ le32 (node.childCount * 24) =
      le32 (UInt32.ofNat members.length) ++ le32 (UInt32.ofNat (members.length * 24)) := by
    rw [hcount, UInt32.ofNat_mul]
    rfl
  have hsize : node.childCount.toNat = members.length := by
    rw [hcount, toNat_ofNat_of_lt hnarrow]
  -- kind byte, header and the hole for the table
  obtain ⟨c₁, c₂, c₃, c₄, h₁, h₂, h₃, h₄, hroom⟩ := emitContainer_yields henv nodes .block
    (le32 (UInt32.ofNat members.length) ++ le32 (UInt32.ofNat (members.length * 24)))
    (members.length * 24)
  generalize hhead : kindImage nodes.data.length .block 8 ++
      (le32 (UInt32.ofNat members.length) ++ le32 (UInt32.ofNat (members.length * 24))) = head at *
  have hpos : nodes.data.length + head.length = kindOffset nodes.data.length 8 + 9 := by
    have hkind := length_kindImage (show 0 < 8 by omega) nodes.data.length .block
    rw [← hhead]
    simp only [List.length_append, length_le32]
    omega
  have hlen : (nodes.data ++ head ++ List.replicate (members.length * 24) 0).length =
      blockStart nodes.data.length members.length := by
    rw [List.length_append, List.length_append, hpos, List.length_replicate, blockStart]
  -- the members come behind the hole, and their entries are sorted
  have hstart := hloop { data := _, capacity := c₄ } hlen hroom
  obtain ⟨c₅, pool₅, fixups₅, h₅, hc₅, hpool₅, hfix₅, hperm₅⟩ :=
    emitMembers_yields henv (length_membersImage _ _ _ _) hsortable hstart
  simp only [hlen] at h₅ hc₅ hpool₅ hperm₅
  have himage := valueImage_block env.hash64 base nodes.data.length members
  rw [List.append_assoc, hhead] at himage
  have hrefs : withEmpty strings (refTargets (valueImage env.hash64 base nodes.data.length
        (.block members))) = withEmpty strings (members.map Prod.fst ++ refTargets
          (membersImage env.hash64 base (blockStart nodes.data.length members.length)
            members).2) :=
    withEmpty_congr mem_refTargets_block
  have hlaid := length_membersImage env.hash64 base
    (blockStart nodes.data.length members.length) members
  rw [Emits, hrefs, himage, render, ← List.append_assoc, render_append, ← List.append_assoc]
  generalize membersImage env.hash64 base (blockStart nodes.data.length members.length) members
    = laid at *
  -- the sorted entries go into the hole
  obtain ⟨pool₆, h₆, hpool₆, hfix₆⟩ := storeEntries_yields henv (C := C)
    (stableSort (fun m => (env.hash64 m.1).toNat) laid.1) (nodes.data ++ head)
    (List.replicate (members.length * 24) 0) (render (relative C) laid.2)
    (by rw [List.length_replicate, length_stableSort, hlaid]) hc₅ hpool₅
  have hwidth : imageWidth (entriesImage env.hash64 laid.1) = members.length * 24 := by
    rw [entriesImage, imageWidth_entries, length_stableSort, hlaid]
  refine ⟨c₅, pool₆, fixups₅ ++ refOffsets (nodes.data ++ head).length
    (entriesImage env.hash64 laid.1), ?_, ?_, hpool₆, ?_, ?_⟩
  · rw [emitBlock, Node.cached_childCount, Node.cached_firstChild, hheader, hsize,
      UInt64.ofNat_add]
    exact h₁.bind (h₂.bind (h₃.bind (h₄.bind ((allocateArray_yields henv _).bind
      (h₅.bind (h₆.bind (yields_pure _)))))))
  · simp only [List.length_append, length_render, hwidth, List.length_replicate] at hc₅ ⊢
    exact hc₅
  · rw [hfix₆, hfix₅, List.append_assoc]
    rfl
  · rw [blockStart] at hperm₅
    rw [refOffsets, refOffsets_append, hwidth, List.length_append, hpos]
    exact List.perm_append_comm.trans (hperm₅.append_left _)

omit henv in
theorem length_flatMap_le64 (offsets : List Nat) :
    (offsets.flatMap fun offset => le64 (UInt64.ofNat offset)).length = offsets.length * 8 := by
  induction offsets with
  | nil => rfl
  | cons offset offsets ih =>
    rw [List.flatMap_cons, List.length_append, length_le64, ih, List.length_cons]
    omega

/-- The elements of an array: each goes behind the others, and its offset into the table. -/
def EmitsElements (env : Env) (workerCount : UInt64) (C strings refs : List Bytes)
    (image : List (Chunk Bytes)) (offsets : List Nat) (pre hole post : Bytes) (pool : Pool)
    (m : AllocM (EncoderBuffer × Pool × UInt32)) : Prop :=
  ∃ capacity pool' fixups count,
    Yields m (.ok ({
      data := pre ++ offsets.flatMap (fun offset => le64 (UInt64.ofNat offset)) ++ post ++
        render (relative C) image
      capacity }, pool', count)) ∧
    (pre ++ offsets.flatMap (fun offset => le64 (UInt64.ofNat offset)) ++ post ++
      render (relative C) image).length ≤ capacity ∧
    PoolHolds env.hash64 workerCount (withEmpty strings refs) pool' ∧
    pool'.fixupOffsets = pool.fixupOffsets ++ fixups ∧
    fixups.Perm (refOffsets (pre ++ hole ++ post).length image)

/-- An array around its elements. -/
theorem emitArray_yields {C strings : List Bytes} {base : Nat} {heap : List Node}
    {emitChild : EmitChild} {node : Node} {elements : List Value}
    {nodes : EncoderBuffer} {pool : Pool}
    (hcount : node.childCount = UInt32.ofNat elements.length)
    (hnarrow : elements.length < 2 ^ 32)
    (hloop : ∀ (pre : Bytes) (capacity : Nat),
      pre.length = kindOffset nodes.data.length 8 + 9 →
      (pre ++ List.replicate (elements.length * 8) 0).length ≤ capacity →
      EmitsElements env workerCount C strings
        (refTargets (elementsImage env.hash64 base (pre.length + elements.length * 8) elements).2)
        (elementsImage env.hash64 base (pre.length + elements.length * 8) elements).2
        (elementsImage env.hash64 base (pre.length + elements.length * 8) elements).1
        pre (List.replicate (elements.length * 8) 0) [] pool
        (forSiblingsIn heap (fun id _ => elementTurn emitChild pre.length id)
          (turnsOf heap) node.firstChild
          ({ data := pre ++ List.replicate (elements.length * 8) 0, capacity }, pool, 0))) :
    Emits env workerCount C strings
      (refTargets (valueImage env.hash64 base nodes.data.length (.array elements)))
      (valueImage env.hash64 base nodes.data.length (.array elements)) nodes pool
      (UInt64.ofNat (base + kindOffset nodes.data.length 8))
      (emitArray env heap (UInt64.ofNat base) emitChild nodes pool (node.cached C)) := by
  have hheader : le32 node.childCount ++ le32 (node.childCount * 8) =
      le32 (UInt32.ofNat elements.length) ++ le32 (UInt32.ofNat (elements.length * 8)) := by
    rw [hcount, UInt32.ofNat_mul]
    rfl
  have hsize : node.childCount.toNat = elements.length := by
    rw [hcount, toNat_ofNat_of_lt hnarrow]
  -- kind byte, header and the hole for the offsets
  obtain ⟨c₁, c₂, c₃, c₄, h₁, h₂, h₃, h₄, hroom⟩ := emitContainer_yields henv nodes .array
    (le32 (UInt32.ofNat elements.length) ++ le32 (UInt32.ofNat (elements.length * 8)))
    (elements.length * 8)
  generalize hhead : kindImage nodes.data.length .array 8 ++
      (le32 (UInt32.ofNat elements.length) ++ le32 (UInt32.ofNat (elements.length * 8))) = head
    at *
  have hpos : (nodes.data ++ head).length = kindOffset nodes.data.length 8 + 9 := by
    have hkind := length_kindImage (show 0 < 8 by omega) nodes.data.length .array
    rw [← hhead]
    simp only [List.length_append, length_le32]
    omega
  -- the elements come behind the hole, and each puts its offset into it
  obtain ⟨c₅, pool₅, fixups₅, count, h₅, hc₅, hpool₅, hfix₅, hperm₅⟩ := hloop _ c₄ hpos hroom
  rw [hpos] at h₅ hc₅ hpool₅ hperm₅
  have himage := valueImage_array env.hash64 base nodes.data.length elements
  rw [List.append_assoc (kindImage _ _ _), hhead] at himage
  have hlaid := length_elementsImage env.hash64 base
    (arrayStart nodes.data.length elements.length) elements
  rw [Emits, himage]
  rw [← arrayStart] at h₅ hc₅ hpool₅ hperm₅
  generalize elementsImage env.hash64 base (arrayStart nodes.data.length elements.length) elements
    = laid at *
  rw [render, refTargets, refOffsets, ← List.append_assoc, ← List.append_assoc]
  simp only [List.append_nil] at h₅ hc₅ hperm₅
  refine ⟨c₅, pool₅, fixups₅, ?_, hc₅, hpool₅, hfix₅, ?_⟩
  · rw [emitArray, Node.cached_childCount, Node.cached_firstChild, hheader, hsize,
      UInt64.ofNat_add]
    refine h₁.bind (h₂.bind (h₃.bind (h₄.bind ?_)))
    rw [hpos]
    exact h₅.bind (yields_pure _)
  · have hlen : (nodes.data ++ head ++ List.replicate (elements.length * 8) 0).length =
        nodes.data.length + (head ++
          laid.1.flatMap fun offset => le64 (UInt64.ofNat offset)).length := by
      simp only [List.length_append, List.length_replicate, length_flatMap_le64, hlaid]
      omega
    rwa [hlen] at hperm₅

end

/-! ## Trees -/

mutual

/-- The counts of members and elements fit into 32 bits, all the way down. -/
def Value.Narrow : Value → Prop
  | .scalar _ => True
  | .block members => members.length < 2 ^ 32 ∧ membersNarrow members
  | .array elements => elements.length < 2 ^ 32 ∧ elementsNarrow elements

def membersNarrow : List (Bytes × Value) → Prop
  | [] => True
  | (_, value) :: members => value.Narrow ∧ membersNarrow members

def elementsNarrow : List Value → Prop
  | [] => True
  | value :: elements => value.Narrow ∧ elementsNarrow elements

end

mutual

/-- The entries of every block can be sorted with so many workers. -/
def Value.Sortable (workerCount : UInt64) : Value → Prop
  | .scalar _ => True
  | .block members =>
    Hrbl.Sortable workerCount members.length ∧ membersSortable workerCount members
  | .array elements => elementsSortable workerCount elements

def membersSortable (workerCount : UInt64) : List (Bytes × Value) → Prop
  | [] => True
  | (_, value) :: members => value.Sortable workerCount ∧ membersSortable workerCount members

def elementsSortable (workerCount : UInt64) : List Value → Prop
  | [] => True
  | value :: elements => value.Sortable workerCount ∧ elementsSortable workerCount elements

end

mutual

/-- Where the sizes of the workers' arrays do not wrap, all entries can be sorted. -/
theorem WorkersFit.value (h : WorkersFit workerCount) :
    ∀ value : Value, value.Sortable workerCount
  | .scalar _ => trivial
  | .block members => ⟨.inr h, h.members members⟩
  | .array elements => h.elements elements

theorem WorkersFit.members (h : WorkersFit workerCount) :
    ∀ members : List (Bytes × Value), membersSortable workerCount members
  | [] => trivial
  | (_, value) :: members => ⟨h.value value, h.members members⟩

theorem WorkersFit.elements (h : WorkersFit workerCount) :
    ∀ elements : List Value, elementsSortable workerCount elements
  | [] => trivial
  | value :: elements => ⟨h.value value, h.elements elements⟩

end

theorem membersSortable_elements {elements : List Value}
    (h : elementsSortable workerCount elements) :
    membersSortable workerCount (elements.map fun e => ([], e)) := by
  induction elements with
  | nil => trivial
  | cons e elements ih => exact ⟨h.1, ih h.2⟩

theorem membersNarrow_elements {elements : List Value} (h : elementsNarrow elements) :
    membersNarrow (elements.map fun e => ([], e)) := by
  induction elements with
  | nil => trivial
  | cons e elements ih => exact ⟨h.1, ih h.2⟩

/-- What is known of a tree of nodes after the collection: it denotes a value, and its nodes
have the offsets of their strings. -/
structure Collected (hash64 : Bytes → UInt64) (C : List Bytes) (heap₀ heap : List Node)
    (t : NodeTree) (key : Bytes) (value : Value) : Prop where
  denotes : t.Denotes hash64 heap₀ key value
  linked : ∃ parent next, LinkedAt heap₀ parent next t
  nodup : t.ids.Nodup
  cached : ∀ id ∈ t.ids, heap[id]? = heap₀[id]?.map (Node.cached C)

/-- The same for a chain of siblings. -/
structure CollectedChain (hash64 : Bytes → UInt64) (C : List Bytes) (heap₀ heap : List Node)
    (ts : List NodeTree) (members : List (Bytes × Value)) : Prop where
  denotes : DenotesMembers hash64 heap₀ ts members
  siblings : ∃ parent, Siblings heap₀ parent none ts
  nodup : (idsOf ts).Nodup
  cached : ∀ id ∈ idsOf ts, heap[id]? = heap₀[id]?.map (Node.cached C)

theorem DenotesMembers.length_eq {hash64 : Bytes → UInt64} {heap : List Node} :
    ∀ {ts : List NodeTree} {members : List (Bytes × Value)},
      DenotesMembers hash64 heap ts members → ts.length = members.length
  | _, _, .nil => rfl
  | _, _, .cons _ tail => congrArg (· + 1) tail.length_eq

section

variable {hash64 : Bytes → UInt64} {C : List Bytes} {heap₀ heap : List Node} {t : NodeTree}
  {ts : List NodeTree} {key : Bytes} {value : Value} {members : List (Bytes × Value)}

theorem CollectedChain.head
    (h : CollectedChain hash64 C heap₀ heap (t :: ts) ((key, value) :: members)) :
    Collected hash64 C heap₀ heap t key value where
  denotes := by cases h.denotes; assumption
  linked := by
    obtain ⟨parent, hlinked, -⟩ := h.siblings
    exact ⟨parent, _, hlinked⟩
  nodup := (List.nodup_append'.mp h.nodup).1
  cached id hid := h.cached id (List.mem_append_left _ hid)

theorem CollectedChain.tail
    (h : CollectedChain hash64 C heap₀ heap (t :: ts) ((key, value) :: members)) :
    CollectedChain hash64 C heap₀ heap ts members where
  denotes := by cases h.denotes; assumption
  siblings := by
    obtain ⟨parent, -, hsiblings⟩ := h.siblings
    exact ⟨parent, hsiblings⟩
  nodup := (List.nodup_append'.mp h.nodup).2.1
  cached id hid := h.cached id (List.mem_append_right _ hid)

/-- The first node of a chain, as the emission finds it. -/
theorem CollectedChain.first
    (h : CollectedChain hash64 C heap₀ heap (t :: ts) ((key, value) :: members)) :
    ∃ node : Node, heap[t.nodeId]? = some (node.cached C) ∧ node.HoldsKey hash64 key ∧
      node.nextSibling = firstId ts none := by
  obtain ⟨parent, hlinked, -⟩ := h.siblings
  obtain ⟨node, hnode, hnext⟩ := hlinked.root
  have hcached := h.head.cached _ t.nodeId_mem_ids
  have hdenotes := h.head.denotes
  rw [hnode, Option.map_some] at hcached
  cases t
  obtain ⟨node', -, -, hnode', hkey, -⟩ := hdenotes.parts
  obtain rfl : node = node' := Option.some.inj (hnode.symm.trans hnode')
  exact ⟨node, hcached, hkey, hnext⟩

/-- There are turns for all siblings, since they are distinct nodes. -/
theorem CollectedChain.length_le_turns (h : CollectedChain hash64 C heap₀ heap ts members) :
    ts.length ≤ turnsOf heap := by
  obtain ⟨parent, hsiblings⟩ := h.siblings
  have hlt : ∀ id ∈ idsOf ts, id < heap.length := by
    intro id hid
    have hcached := h.cached id hid
    rw [List.getElem?_eq_getElem (hsiblings.lt_length id hid), Option.map_some] at hcached
    exact (List.getElem?_eq_some_iff.mp hcached).1
  have hle := length_le_of_nodup h.nodup hlt
  have hlen := length_le_idsOf ts
  rw [turnsOf]
  omega

variable {id : NodeId}

/-- The node of a scalar, as the emission finds it. -/
theorem Collected.scalar {s : Scalar}
    (h : Collected hash64 C heap₀ heap (.mk id ts) key (.scalar s)) :
    ∃ node : Node, heap[id]? = some (node.cached C) ∧ node.kind = s.kind ∧
      node.HoldsPayload s := by
  have hcached := h.cached id List.mem_cons_self
  cases h.denotes with
  | scalar hnode hkey hkind hpayload =>
    rw [hnode, Option.map_some] at hcached
    exact ⟨_, hcached, hkind, hpayload⟩

/-- The node of a container and its children. -/
theorem Collected.container (kind : ScopeKind)
    (h : Collected hash64 C heap₀ heap (.mk id ts) key value)
    (hdenotes : ∃ node : Node, heap₀[id]? = some node ∧ node.kind = kind.kind ∧
      DenotesMembers hash64 heap₀ ts members) :
    ∃ node : Node, heap[id]? = some (node.cached C) ∧ node.kind = kind.kind ∧
      node.childCount = UInt32.ofNat members.length ∧ node.firstChild = firstId ts none ∧
      CollectedChain hash64 C heap₀ heap ts members := by
  obtain ⟨node, hnode, hkind, hmembers⟩ := hdenotes
  obtain ⟨parent, next, node', hnode', -, -, hends, hsiblings⟩ := h.linked
  obtain rfl : node = node' := Option.some.inj (hnode.symm.trans hnode')
  have hcached := h.cached id List.mem_cons_self
  rw [hnode, Option.map_some] at hcached
  refine ⟨node, hcached, hkind, ?_, hends.first_eq, hmembers, ⟨_, hsiblings⟩,
    (List.nodup_cons.mp h.nodup).2, fun i hi => h.cached i (List.mem_cons_of_mem _ hi)⟩
  rw [hends.count_eq, hmembers.length_eq]
  rfl

theorem Collected.block (h : Collected hash64 C heap₀ heap (.mk id ts) key (.block members)) :
    ∃ node : Node, heap[id]? = some (node.cached C) ∧ node.kind = .block ∧
      node.childCount = UInt32.ofNat members.length ∧ node.firstChild = firstId ts none ∧
      CollectedChain hash64 C heap₀ heap ts members := by
  refine h.container .block ?_
  cases h.denotes with
  | block hnode hkey hkind hmembers => exact ⟨_, hnode, hkind, hmembers⟩

theorem Collected.array {elements : List Value}
    (h : Collected hash64 C heap₀ heap (.mk id ts) key (.array elements)) :
    ∃ node : Node, heap[id]? = some (node.cached C) ∧ node.kind = .array ∧
      node.childCount = UInt32.ofNat elements.length ∧ node.firstChild = firstId ts none ∧
      CollectedChain hash64 C heap₀ heap ts (elements.map fun e => ([], e)) := by
  have hlength : (elements.map fun e => (([] : Bytes), e)).length = elements.length :=
    List.length_map _
  rw [← hlength]
  refine h.container .array ?_
  cases h.denotes with
  | array hnode hkey hkind helements => exact ⟨_, hnode, hkind, helements⟩

end

/-- What is known of a tree of nodes when it is emitted: its strings have been collected
too, its counts fit, and its entries can be sorted. -/
structure Ready (env : Env) (workerCount : UInt64) (C : List Bytes) (heap₀ heap : List Node)
    (t : NodeTree) (key : Bytes) (value : Value) : Prop
    extends Collected env.hash64 C heap₀ heap t key value where
  uses : ∀ u ∈ valueUses value, u ∈ C
  narrow : value.Narrow
  sortable : value.Sortable workerCount

/-- The same for a chain of siblings. -/
structure ReadyChain (env : Env) (workerCount : UInt64) (C : List Bytes)
    (heap₀ heap : List Node) (ts : List NodeTree) (members : List (Bytes × Value)) : Prop
    extends CollectedChain env.hash64 C heap₀ heap ts members where
  uses : ∀ u ∈ membersUses members, u ∈ C
  narrow : membersNarrow members
  sortable : membersSortable workerCount members

theorem ReadyChain.head {env : Env} {C : List Bytes} {heap₀ heap : List Node} {t : NodeTree}
    {ts : List NodeTree} {key : Bytes} {value : Value} {members : List (Bytes × Value)}
    (h : ReadyChain env workerCount C heap₀ heap (t :: ts) ((key, value) :: members)) :
    Ready env workerCount C heap₀ heap t key value where
  toCollected := h.toCollectedChain.head
  uses u hu := h.uses u (List.mem_append_left _ (List.mem_append_right _ hu))
  narrow := h.narrow.1
  sortable := h.sortable.1

theorem ReadyChain.tail {env : Env} {C : List Bytes} {heap₀ heap : List Node} {t : NodeTree}
    {ts : List NodeTree} {key : Bytes} {value : Value} {members : List (Bytes × Value)}
    (h : ReadyChain env workerCount C heap₀ heap (t :: ts) ((key, value) :: members)) :
    ReadyChain env workerCount C heap₀ heap ts members where
  toCollectedChain := h.toCollectedChain.tail
  uses u hu := h.uses u (List.mem_append_right _ hu)
  narrow := h.narrow.2
  sortable := h.sortable.2

section

variable {env : Env} {C : List Bytes} {heap₀ heap : List Node} {id : NodeId}
  {ts : List NodeTree} {key : Bytes}

theorem Ready.block {members : List (Bytes × Value)}
    (h : Ready env workerCount C heap₀ heap (.mk id ts) key (.block members)) :
    ∃ node : Node, heap[id]? = some (node.cached C) ∧ node.kind = .block ∧
      node.childCount = UInt32.ofNat members.length ∧ node.firstChild = firstId ts none ∧
      ReadyChain env workerCount C heap₀ heap ts members := by
  obtain ⟨node, hnode, hkind, hcount, hfirst, hchain⟩ := h.toCollected.block
  exact ⟨node, hnode, hkind, hcount, hfirst, hchain, h.uses, h.narrow.2, h.sortable.2⟩

theorem Ready.array {elements : List Value}
    (h : Ready env workerCount C heap₀ heap (.mk id ts) key (.array elements)) :
    ∃ node : Node, heap[id]? = some (node.cached C) ∧ node.kind = .array ∧
      node.childCount = UInt32.ofNat elements.length ∧ node.firstChild = firstId ts none ∧
      ReadyChain env workerCount C heap₀ heap ts (elements.map fun e => ([], e)) := by
  obtain ⟨node, hnode, hkind, hcount, hfirst, hchain⟩ := h.toCollected.array
  refine ⟨node, hnode, hkind, hcount, hfirst, hchain, ?_, membersNarrow_elements h.narrow.2,
    membersSortable_elements h.sortable⟩
  rw [membersUses_elements]
  exact h.uses

/-- One member: its entry joins the pending ones. -/
theorem memberTurn_yields {strings refs : List Bytes} {image : List (Chunk Bytes)}
    {emitChild : EmitChild} {count : Nat} {id : NodeId} {child : Node} {nodes : EncoderBuffer}
    {pool : Pool} {pending : List Entry} {entry : Entry} (hcount : pending.length < count)
    (h : Emits env workerCount C strings refs image nodes pool entry
      (emitMember env emitChild id child nodes pool)) :
    Emits env workerCount C strings refs image nodes pool (pending ++ [entry])
      (memberTurn env emitChild count id child (nodes, pool, pending)) := by
  obtain ⟨c, pool', fixups, hyields, hrest⟩ := h
  refine ⟨c, pool', fixups, hyields.bind ?_, hrest⟩
  simp only [if_pos hcount]
  exact yields_pure _

/-- One element: its offset is stored over its part of the table. -/
theorem elementTurn_yields {strings refs : List Bytes} {image : List (Chunk Bytes)}
    {emitChild : EmitChild} {offsetsOffset offset capacity : Nat} {index : UInt32}
    {pre hole post : Bytes} {pool : Pool}
    (hindex : offsetsOffset + index.toNat * 8 = pre.length) (hhole : 8 ≤ hole.length)
    (h : Emits env workerCount C strings refs image { data := pre ++ hole ++ post, capacity } pool
      (UInt64.ofNat offset) (emitChild id { data := pre ++ hole ++ post, capacity } pool)) :
    ∃ capacity' pool' fixups, Yields (elementTurn emitChild offsetsOffset id
        ({ data := pre ++ hole ++ post, capacity }, pool, index))
        (.ok ({
          data := pre ++ le64 (UInt64.ofNat offset) ++ hole.drop 8 ++
            (post ++ render (relative C) image)
          capacity := capacity' }, pool', index + 1)) ∧
      (pre ++ le64 (UInt64.ofNat offset) ++ hole.drop 8 ++
        (post ++ render (relative C) image)).length ≤ capacity' ∧
      PoolHolds env.hash64 workerCount (withEmpty strings refs) pool' ∧
      pool'.fixupOffsets = pool.fixupOffsets ++ fixups ∧
      fixups.Perm (refOffsets (pre ++ hole ++ post).length image) := by
  obtain ⟨c, pool', fixups, hyields, hroom, hpool', hfixups, hperm⟩ := h
  have hsplit : pre ++ hole ++ post ++ render (relative C) image =
      pre ++ hole.take 8 ++ (hole.drop 8 ++ post ++ render (relative C) image) := by
    rw [List.append_assoc, List.append_assoc, List.append_assoc, List.append_assoc,
      ← List.append_assoc (hole.take 8), List.take_append_drop]
  have hlen : (le64 (UInt64.ofNat offset)).length = (hole.take 8).length := by
    rw [length_le64, List.length_take]
    omega
  have hjoin : pre ++ le64 (UInt64.ofNat offset) ++ hole.drop 8 ++
      (post ++ render (relative C) image) =
      pre ++ le64 (UInt64.ofNat offset) ++ (hole.drop 8 ++ post ++ render (relative C) image) := by
    simp only [List.append_assoc]
  refine ⟨c, pool', fixups, ?_, ?_, hpool', hfixups, hperm⟩
  · refine hyields.bind ?_
    simp only [hindex, hsplit, hjoin]
    exact (storeAt_yields hlen (hsplit ▸ hroom)).bind (yields_pure _)
  · rw [hsplit] at hroom
    rw [hjoin]
    simp only [List.length_append, hlen] at hroom ⊢
    exact hroom

end

theorem mem_keyUses {key : Bytes} {uses more : List Bytes} (hne : key ≠ []) :
    key ∈ keyUses key ++ uses ++ more := by
  rw [keyUses, if_neg hne]
  exact List.mem_append_left _ (List.mem_append_left _ (List.mem_singleton.mpr rfl))

section

variable {env : Env} {base : Nat} {C : List Bytes} {heap₀ heap : List Node}

mutual

/-- The value of a tree of nodes. -/
theorem emitValue_yields (henv : env.Succeeds) : ∀ {t : NodeTree} {key : Bytes} {value : Value}
    (nodes : EncoderBuffer) {pool : Pool} {strings : List Bytes} {depth : Nat},
    Ready env workerCount C heap₀ heap t key value → t.ids.length ≤ depth → Late C strings →
    PoolHolds env.hash64 workerCount strings pool →
    ([] ∈ refTargets (valueImage env.hash64 base nodes.data.length value) → UsesFit C [[]]) →
    Emits env workerCount C strings (refTargets (valueImage env.hash64 base nodes.data.length value))
      (valueImage env.hash64 base nodes.data.length value) nodes pool
      (UInt64.ofNat (base + kindOffset nodes.data.length value.bodyAlign))
      (emitValue env heap (UInt64.ofNat base) depth t.nodeId nodes pool)
  | .mk id ts, key, value, nodes, pool, strings, 0, _, hdepth, _, _, _ => by
    rw [ids, List.length_cons] at hdepth
    omega
  | .mk id ts, key, .scalar s, nodes, pool, strings, depth + 1, hready, _, hlate, hpool, _ => by
    obtain ⟨node, hnode, hkind, hpayload⟩ := hready.scalar
    have hemits := emitScalar_yields henv base hkind hpayload hready.uses nodes
      hlate hpool
    rw [emitValue]
    refine Emits.after (derefNode_yields hnode) ?_
    rw [Node.cached_kind, hkind]
    cases s with
    | bool value => cases value <;> exact hemits
    | _ => exact hemits
  | .mk id ts, key, .block members, nodes, pool, strings, depth + 1, hready, hdepth, hlate,
      hpool, hroom => by
    obtain ⟨node, hnode, hkind, hcount, hfirst, hchain⟩ := hready.block
    rw [ids, List.length_cons] at hdepth
    rw [emitValue]
    refine Emits.after (derefNode_yields hnode) ?_
    rw [Node.cached_kind, hkind]
    -- the members are one level down, where the nodes are fewer
    refine emitBlock_yields henv hcount hready.narrow.1 hready.sortable.1
      fun start hstart hfits => ?_
    rw [hfirst]
    refine emitMembersLoop_yields henv _ _ _ hchain (show (idsOf ts).length ≤ depth by omega)
      hchain.length_le_turns ?_ rfl hfits hlate hpool fun hmem => hroom ?_
    · rw [hchain.denotes.length_eq, List.length_nil, Nat.zero_add]
    · rw [mem_refTargets_block, ← hstart]
      exact hmem
  | .mk id ts, key, .array elements, nodes, pool, strings, depth + 1, hready, hdepth, hlate,
      hpool, hroom => by
    obtain ⟨node, hnode, hkind, hcount, hfirst, hchain⟩ := hready.array
    rw [ids, List.length_cons] at hdepth
    rw [emitValue]
    refine Emits.after (derefNode_yields hnode) ?_
    rw [Node.cached_kind, hkind]
    refine emitArray_yields henv hcount hready.narrow.1 fun pre capacity hpre hfits => ?_
    rw [valueImage_array, refTargets, elementsImage_eq, arrayStart, ← hpre] at hroom
    rw [hfirst, elementsImage_eq]
    have hcount : (0 : UInt32).toNat + ts.length < 2 ^ 32 := by
      have hzero : (0 : UInt32).toNat = 0 := rfl
      rw [hzero, Nat.zero_add, hchain.denotes.length_eq, List.length_map]
      exact hready.narrow.1
    -- the elements are one level down, where the nodes are fewer
    have hloop := emitElementsLoop_yields henv pre
      (List.replicate (elements.length * 8) 0) [] capacity pre.length 0 hchain
      (show (idsOf ts).length ≤ depth by omega) hchain.length_le_turns rfl hcount
      (by rw [List.length_replicate, hchain.denotes.length_eq, List.length_map])
      (by rw [List.append_nil, List.length_append, List.length_replicate])
      (by rwa [List.append_nil]) hlate hpool hroom
    rw [List.append_nil] at hloop
    exact hloop

/-- The members of the root or of a block. -/
theorem emitMembersLoop_yields (henv : env.Succeeds) : ∀ {ts : List NodeTree}
    {members : List (Bytes × Value)} (nodes : EncoderBuffer) {pool : Pool}
    {strings : List Bytes} (pending : List Entry) {depth turns : Nat} (count : Nat) {pos : Nat},
    ReadyChain env workerCount C heap₀ heap ts members → (idsOf ts).length ≤ depth →
    ts.length ≤ turns → pending.length + ts.length ≤ count → nodes.data.length = pos →
    nodes.data.length ≤ nodes.capacity → Late C strings → PoolHolds env.hash64 workerCount strings pool →
    ([] ∈ members.map Prod.fst ++ refTargets (membersImage env.hash64 base pos members).2 →
      UsesFit C [[]]) →
    Emits env workerCount C strings
      (members.map Prod.fst ++ refTargets (membersImage env.hash64 base pos members).2)
      (membersImage env.hash64 base pos members).2 nodes pool
      (pending ++ (membersImage env.hash64 base pos members).1.map
        (entryWith env.hash64 (relative C)))
      (forSiblingsIn heap
        (memberTurn env (emitValue env heap (UInt64.ofNat base) depth) count) turns
        (firstId ts none) (nodes, pool, pending))
  | [], _, nodes, pool, _, pending, depth, turns, count, pos, hready, _, _, _, _, hnodes, _,
      hpool, _ => by
    cases hready.denotes
    have hloop : forSiblingsIn heap
        (memberTurn env (emitValue env heap (UInt64.ofNat base) depth) count) turns
        (firstId [] none) (nodes, pool, pending) = pure (nodes, pool, pending) := by
      cases turns <;> rfl
    have hempty : pending ++ (membersImage env.hash64 base pos []).1.map
        (entryWith env.hash64 (relative C)) = pending := List.append_nil _
    rw [hloop, hempty]
    exact Emits.pure hnodes hpool
  | t :: ts, _, _, _, _, _, _, 0, _, _, _, _, hturns, _, _, _, _, _, _ => by
    rw [List.length_cons] at hturns
    omega
  | t :: ts, [], _, _, _, _, _, _ + 1, _, _, hready, _, _, _, _, _, _, _, _ => by
    cases hready.denotes
  | t :: ts, (key, value) :: members, nodes, pool, strings, pending, depth, turns + 1, count,
      pos, hready, hdepth, hturns, hcount, hpos, hnodes, hlate, hpool, hroom => by
    subst hpos
    obtain ⟨node, hnode, hkey, hnext⟩ := hready.first
    rw [idsOf, List.length_append] at hdepth
    rw [List.length_cons] at hturns hcount
    rw [membersImage_cons] at hroom ⊢
    simp only [List.map_cons, refTargets_append, List.cons_append, List.mem_cons,
      List.mem_append] at hroom ⊢
    -- the first member, by induction on the levels of nodes
    have hmember := emitMember_yields henv t.nodeId nodes hkey
      (fun hne => hready.uses key (mem_keyUses hne)) (fun hempty => hroom (.inl hempty.symm)) hlate
      hpool fun pool' strings' hlate' hpool' => emitValue_yields henv _ hready.head
        (show t.ids.length ≤ depth by omega) hlate' hpool' fun hmem =>
          hroom (.inr (.inr (.inl hmem)))
    have hturn := memberTurn_yields (show pending.length < count by omega) hmember
    have hentries : pending ++ entryWith env.hash64 (relative C)
          (key, base + kindOffset nodes.data.length value.bodyAlign) ::
        (membersImage env.hash64 base (nodes.data.length +
          imageWidth (valueImage env.hash64 base nodes.data.length value)) members).1.map
            (entryWith env.hash64 (relative C)) =
        (pending ++ [entryWith env.hash64 (relative C)
          (key, base + kindOffset nodes.data.length value.bodyAlign)]) ++
        (membersImage env.hash64 base (nodes.data.length +
          imageWidth (valueImage env.hash64 base nodes.data.length value)) members).1.map
            (entryWith env.hash64 (relative C)) := List.append_cons ..
    rw [hentries]
    -- then the others, from where it ends
    have hall := Emits.after (f := fun node => memberTurn env (emitValue env heap
        (UInt64.ofNat base) depth) count t.nodeId node (nodes, pool, pending) >>= fun s =>
        derefNode heap t.nodeId >>= fun node => forSiblingsIn heap (memberTurn env
          (emitValue env heap (UInt64.ofNat base) depth) count) turns node.nextSibling s)
      (derefNode_yields hnode) (hturn.bind fun capacity pool' hfits hpool' =>
        Emits.after (derefNode_yields hnode) (by
          rw [Node.cached_nextSibling, hnext]
          exact emitMembersLoop_yields henv _ _ count
            hready.tail (show (idsOf ts).length ≤ depth by omega)
            (show ts.length ≤ turns by omega)
            (by rw [List.length_append, List.length_singleton]; omega)
            (by rw [List.length_append, length_render]) hfits (hlate.withEmpty _) hpool'
            fun hmem => hroom (by rw [List.mem_append] at hmem; tauto)))
    refine hall.congr ?_
    simp only [List.cons_append, List.mem_cons, List.mem_append]
    tauto

/-- The elements of an array. -/
theorem emitElementsLoop_yields (henv : env.Succeeds) : ∀ {ts : List NodeTree}
    {members : List (Bytes × Value)} (pre hole post : Bytes) {pool : Pool}
    {strings : List Bytes} (capacity offsetsOffset : Nat) (index : UInt32) {depth turns pos : Nat},
    ReadyChain env workerCount C heap₀ heap ts members → (idsOf ts).length ≤ depth →
    ts.length ≤ turns → offsetsOffset + index.toNat * 8 = pre.length →
    index.toNat + ts.length < 2 ^ 32 → hole.length = ts.length * 8 →
    (pre ++ hole ++ post).length = pos → (pre ++ hole ++ post).length ≤ capacity →
    Late C strings → PoolHolds env.hash64 workerCount strings pool →
    ([] ∈ refTargets (membersImage env.hash64 base pos members).2 → UsesFit C [[]]) →
    EmitsElements env workerCount C strings
      (refTargets (membersImage env.hash64 base pos members).2)
      (membersImage env.hash64 base pos members).2
      ((membersImage env.hash64 base pos members).1.map Prod.snd) pre hole post pool
      (forSiblingsIn heap
        (fun id _ => elementTurn (emitValue env heap (UInt64.ofNat base) depth) offsetsOffset id)
        turns (firstId ts none) ({ data := pre ++ hole ++ post, capacity }, pool, index))
  | [], _, pre, hole, post, pool, _, capacity, offsetsOffset, index, depth, turns, pos, hready, _,
      _, _, _, hhole, _, hfits, _, hpool, _ => by
    cases hready.denotes
    obtain rfl : hole = [] := List.length_eq_zero_iff.mp (hhole.trans (Nat.zero_mul 8))
    refine ⟨capacity, pool, [], index, ?_, ?_, hpool, (List.append_nil _).symm, List.Perm.refl _⟩
    · have hdata : pre ++ (((membersImage env.hash64 base pos []).1.map Prod.snd).flatMap
          fun offset => le64 (UInt64.ofNat offset)) ++ post ++
          render (relative C) (membersImage env.hash64 base pos []).2 = pre ++ [] ++ post :=
        List.append_nil _
      rw [hdata]
      exact forSiblings_none _ _
    · simpa [membersImage, render] using hfits
  | t :: ts, _, _, _, _, _, _, _, _, _, _, 0, _, _, _, hturns, _, _, _, _, _, _, _, _ => by
    rw [List.length_cons] at hturns
    omega
  | t :: ts, [], _, _, _, _, _, _, _, _, _, _ + 1, _, hready, _, _, _, _, _, _, _, _, _, _ => by
    cases hready.denotes
  | t :: ts, (key, value) :: members, pre, hole, post, pool, strings, capacity, offsetsOffset,
      index, depth, turns + 1, pos, hready, hdepth, hturns, hindex, hsmall, hhole, hpos, hfits,
      hlate, hpool, hroom => by
    subst hpos
    rw [List.length_cons] at hsmall
    have hsucc : (index + 1).toNat = index.toNat + 1 := by
      have hone : (1 : UInt32).toNat = 1 := rfl
      rw [UInt32.toNat_add, hone, Nat.mod_eq_of_lt (by omega)]
    obtain ⟨node, hnode, hkey, hnext⟩ := hready.first
    rw [idsOf, List.length_append] at hdepth
    rw [List.length_cons] at hturns hhole
    rw [membersImage_cons] at hroom ⊢
    simp only [refTargets_append, List.mem_append, List.map_cons] at hroom ⊢
    -- the first element takes the first eight bytes of the hole
    obtain ⟨c₁, pool₁, fixups₁, h₁, hfits₁, hpool₁, hfix₁, hperm₁⟩ :=
      elementTurn_yields hindex (show 8 ≤ hole.length by omega) (emitValue_yields henv
        { data := pre ++ hole ++ post, capacity } hready.head
        (show t.ids.length ≤ depth by omega) hlate hpool fun hmem => hroom (.inl hmem))
    generalize himage : valueImage env.hash64 base (pre ++ hole ++ post).length value = image at *
    have hlen : (pre ++ le64 (UInt64.ofNat (base + kindOffset (pre ++ hole ++ post).length
        value.bodyAlign)) ++ hole.drop 8 ++ (post ++ render (relative C) image)).length =
        (pre ++ hole ++ post).length + imageWidth image := by
      simp only [List.length_append, length_le64, List.length_drop, length_render]
      omega
    -- and the others the rest of it
    obtain ⟨c₂, pool₂, fixups₂, count, h₂, hfits₂, hpool₂, hfix₂, hperm₂⟩ :=
      emitElementsLoop_yields henv _ (hole.drop 8) _ c₁ offsetsOffset (index + 1)
        hready.tail (show (idsOf ts).length ≤ depth by omega) (show ts.length ≤ turns by omega)
        (by rw [hsucc, List.length_append, length_le64]; omega)
        (by rw [hsucc]; omega) (by rw [List.length_drop]; omega) hlen hfits₁
        (hlate.withEmpty _) hpool₁
        fun hmem => hroom (.inr hmem)
    rw [← withEmpty_append] at hpool₂
    rw [hlen] at hperm₂
    rw [EmitsElements, List.flatMap_cons, render_append, refOffsets_append]
    simp only [← List.append_assoc] at h₁ h₂ hfits₂ ⊢
    refine ⟨c₂, pool₂, fixups₁ ++ fixups₂, count, ?_, hfits₂, hpool₂, ?_, hperm₁.append hperm₂⟩
    · refine forSiblings_some (derefNode_yields hnode) h₁ (derefNode_yields hnode) ?_
      rw [Node.cached_nextSibling, hnext]
      exact h₂
    · rw [hfix₂, hfix₁, List.append_assoc]

end

end

end Hrbl
