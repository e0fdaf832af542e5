import Hrbl.EntrySort
import Hrbl.Strings
import Hrbl.Lib.OpenAddressing

/-!
# Buffers and the string pool

The growing buffer of the encoder and `bc_hrbl_encoder_pool_*`: a buffer of records,
one for each distinct string, and a table of slots to find the record of a string
again. `PoolHolds` is the invariant: the pool holds a list of distinct strings, in the
order of their first use. Sizes are `Nat`: an object never has as many bytes as would
make `size_t` wrap.
-/

namespace Hrbl

open Lib

/-! ## Buffers -/

/-- `bc_hrbl_encoder_buffer_t`. -/
structure EncoderBuffer where
  data : Bytes
  capacity : Nat
deriving Repr, DecidableEq

/-- `bc_hrbl_encoder_buffer_init`. -/
def bufferInit (env : Env) (initialCapacity : Nat) : AllocM EncoderBuffer :=
  if initialCapacity = 0 then return { data := [], capacity := 0 }
  else do
    allocate env
    return { data := [], capacity := initialCapacity }

/-- `while (new_capacity < required) new_capacity *= 2`. -/
def doubled (required capacity : Nat) : Nat :=
  if capacity < required ∧ 0 < capacity then doubled required (capacity * 2) else capacity
termination_by required - capacity

/-- `bc_hrbl_encoder_buffer_reserve`. -/
def bufferReserve (env : Env) (b : EncoderBuffer) (required : Nat) : AllocM EncoderBuffer :=
  if required ≤ b.capacity then return b
  else do
    allocate env
    return { b with capacity := doubled required (if b.capacity = 0 then 4096 else b.capacity) }

/-- `bc_hrbl_encoder_buffer_append`. -/
def bufferAppend (env : Env) (b : EncoderBuffer) (data : Bytes) : AllocM EncoderBuffer := do
  let b ← bufferReserve env b (b.data.length + data.length)
  return { b with data := b.data ++ data }

/-- `bc_hrbl_encoder_buffer_append_zero`. -/
def bufferAppendZero (env : Env) (b : EncoderBuffer) (length : Nat) : AllocM EncoderBuffer :=
  bufferAppend env b (List.replicate length 0)

/-- `bc_hrbl_encoder_buffer_align_to`. -/
def bufferAlignTo (env : Env) (b : EncoderBuffer) (alignment : Nat) : AllocM EncoderBuffer :=
  let aligned := alignUpNat b.data.length alignment
  if aligned = b.data.length then return b
  else bufferAppendZero env b (aligned - b.data.length)

theorem le_doubled (required : Nat) {capacity : Nat} (h : 0 < capacity) :
    required ≤ doubled required capacity := by
  fun_induction doubled required capacity with
  | case1 capacity _ ih => exact ih (by omega)
  | case2 capacity hdone => omega

theorem bufferReserve_yields {env : Env} (henv : env.Succeeds) (b : EncoderBuffer)
    (required : Nat) :
    ∃ capacity, required ≤ capacity ∧
      Yields (bufferReserve env b required) (.ok { b with capacity }) := by
  unfold bufferReserve
  by_cases hroom : required ≤ b.capacity
  · exact ⟨b.capacity, hroom, by rw [if_pos hroom]; exact yields_pure _⟩
  · rw [if_neg hroom]
    exact ⟨_, le_doubled required (by split <;> omega),
      (allocate_yields henv).bind (yields_pure _)⟩

theorem bufferAppend_yields {env : Env} (henv : env.Succeeds) (b : EncoderBuffer) (data : Bytes) :
    ∃ capacity, (b.data ++ data).length ≤ capacity ∧
      Yields (bufferAppend env b data) (.ok { data := b.data ++ data, capacity }) := by
  obtain ⟨capacity, hle, h⟩ := bufferReserve_yields henv b (b.data.length + data.length)
  exact ⟨capacity, by rwa [List.length_append], h.bind (yields_pure _)⟩

theorem bufferAlignTo_yields {env : Env} (henv : env.Succeeds) {b : EncoderBuffer}
    (hroom : b.data.length ≤ b.capacity) (alignment : Nat) :
    ∃ capacity, (b.data ++ List.replicate
          (alignUpNat b.data.length alignment - b.data.length) 0).length ≤ capacity ∧
      Yields (bufferAlignTo env b alignment) (.ok {
        data := b.data ++ List.replicate
          (alignUpNat b.data.length alignment - b.data.length) 0
        capacity }) := by
  unfold bufferAlignTo
  by_cases heq : alignUpNat b.data.length alignment = b.data.length
  · refine ⟨b.capacity, ?_⟩
    rw [if_pos heq, heq, Nat.sub_self, List.replicate_zero, List.append_nil]
    exact ⟨hroom, yields_pure b⟩
  · simp only [if_neg heq]
    exact bufferAppend_yields henv b _

/-! ## The pool -/

/-- `bc_hrbl_encoder_pool_entry_t`. -/
structure PoolEntry where
  poolOffset : UInt32
  length : UInt32
deriving Repr, DecidableEq

/-- `bc_hrbl_encoder_pool_slot_t`; a slot of hash zero is empty. -/
structure PoolSlot where
  hash : UInt64
  entryIndex : UInt32
deriving Repr, DecidableEq

/-- `slot->hash != BC_HRBL_ENCODER_POOL_SLOT_EMPTY`. -/
def PoolSlot.live (slot : PoolSlot) : Bool := slot.hash ≠ 0

/-- `bc_hrbl_encoder_pool_t`. -/
structure Pool where
  buffer : EncoderBuffer
  entries : List PoolEntry
  entriesCapacity : Nat
  slots : List PoolSlot
  slotsUsed : Nat
  fixupOffsets : List Nat
  fixupCapacity : Nat
  workerCount : UInt64
deriving Repr, DecidableEq

/-- `bc_hrbl_encoder_pool_record_fixup`. -/
def recordFixup (env : Env) (pool : Pool) (nodeOffset : Nat) : AllocM Pool :=
  if pool.fixupOffsets.length = pool.fixupCapacity then do
    allocate env
    return { pool with
      fixupCapacity := if pool.fixupCapacity = 0 then 1024 else pool.fixupCapacity * 2
      fixupOffsets := pool.fixupOffsets ++ [nodeOffset] }
  else return { pool with fixupOffsets := pool.fixupOffsets ++ [nodeOffset] }

/-- `bc_hrbl_encoder_pool_mark`: no string is marked with the hash of an empty slot. -/
def poolMark (rawHash : UInt64) : UInt64 :=
  if rawHash = 0 then 0x8000000000000000 else rawHash

/-- `(size_t)hash & slots_mask`. -/
def slotHome (hash : UInt64) (slots : List PoolSlot) : Nat := hash.toNat &&& (slots.length - 1)

/-- The loop of `slots_grow` over the old slots. -/
def reinsertSlots (slots : List PoolSlot) : List PoolSlot → AllocM (List PoolSlot)
  | [] => return slots
  | old :: rest =>
    if old.live then
      match probe PoolSlot.live (fun _ => false) slots slots.length (slotHome old.hash slots) with
      | .vacant place => reinsertSlots (slots.set place old) rest
      | .hit _ | .endless => throw .diverges
    else reinsertSlots slots rest

/-- `bc_hrbl_encoder_pool_slots_grow`. -/
def slotsGrow (env : Env) (pool : Pool) (newCapacity : Nat) : AllocM Pool := do
  allocate env
  let slots ← reinsertSlots (List.replicate newCapacity { hash := 0, entryIndex := 0 }) pool.slots
  return { pool with slots }

/-- `bc_hrbl_encoder_pool_init`. -/
def poolInit (env : Env) (initialCapacity : Nat) : AllocM Pool := do
  let buffer ← bufferInit env (if initialCapacity < 4096 then 4096 else initialCapacity)
  slotsGrow env
    { buffer := buffer
      entries := []
      entriesCapacity := 0
      slots := []
      slotsUsed := 0
      fixupOffsets := []
      fixupCapacity := 0
      workerCount := 0 } 512

/-- `bc_hrbl_encoder_pool_entries_reserve`. -/
def entriesReserve (env : Env) (pool : Pool) (required : Nat) : AllocM Pool :=
  if required ≤ pool.entriesCapacity then return pool
  else do
    allocate env
    let capacity := if pool.entriesCapacity = 0 then 64 else pool.entriesCapacity
    return { pool with entriesCapacity := doubled required capacity }

/-- The comparison of the search loop: the slot is that of the string `data`. -/
def slotMatches (pool : Pool) (data : Bytes) (hash : UInt64) (slot : PoolSlot) : Bool :=
  slot.hash = hash &&
    match pool.entries[slot.entryIndex.toNat]? with
    | some candidate =>
      candidate.length = UInt32.ofNat data.length &&
        (data.length = 0 ||
          fetch pool.buffer.data (candidate.poolOffset.toNat + 4) data.length = some data)
    | none => false

/-- The part of `intern_with_hash` that writes a new record and its entry. -/
def appendRecord (env : Env) (pool : Pool) (data : Bytes) : AllocM Pool := do
  let intraOffset := pool.buffer.data.length
  let buffer ← bufferAppend env pool.buffer (leBytes 4 data.length)
  let buffer ← (if data.length ≠ 0 then bufferAppend env buffer data else pure buffer)
  let buffer ← bufferAlignTo env buffer 4
  let pool ← entriesReserve env { pool with buffer } (pool.entries.length + 1)
  return { pool with
    entries := pool.entries ++
      [{ poolOffset := UInt32.ofNat intraOffset, length := UInt32.ofNat data.length }] }

/-- The part of `intern_with_hash` that keeps the slots at most three quarters full: the
pool and the place for the new slot, which is searched again when the slots have grown. -/
def reserveSlot (env : Env) (pool : Pool) (hash : UInt64) (place : Nat) : AllocM (Pool × Nat) :=
  if (pool.slotsUsed + 1) * 4 ≥ pool.slots.length * 3 then do
    let pool ← slotsGrow env pool (pool.slots.length * 2)
    match probe PoolSlot.live (fun _ => false) pool.slots pool.slots.length
        (slotHome hash pool.slots) with
    | .vacant place => return (pool, place)
    | .hit _ | .endless => throw .diverges
  else return (pool, place)

/-- `bc_hrbl_encoder_pool_intern_with_hash`. -/
def internWithHash (env : Env) (pool : Pool) (data : Bytes) (rawHash : UInt64) :
    AllocM (Pool × UInt32) :=
  if data.length > lengthMax then throw (.error .stringLengthOverflow4GB)
  else
    match probe PoolSlot.live (slotMatches pool data (poolMark rawHash)) pool.slots
        pool.slots.length (slotHome (poolMark rawHash) pool.slots) with
    | .endless => throw .diverges
    | .hit slot =>
      match pool.entries[slot.entryIndex.toNat]? with
      | some candidate => return (pool, candidate.poolOffset)
      | none => throw .fault
    | .vacant place =>
      if pool.buffer.data.length > lengthMax then throw (.error .stringPoolOverflow4GB)
      else do
        let written ← appendRecord env pool data
        let (reserved, place) ← reserveSlot env written (poolMark rawHash) place
        return ({ reserved with
          slots := reserved.slots.set place
            { hash := poolMark rawHash, entryIndex := UInt32.ofNat pool.entries.length }
          slotsUsed := reserved.slotsUsed + 1 }, UInt32.ofNat pool.buffer.data.length)

/-- `bc_hrbl_encoder_pool_intern`. -/
def intern (env : Env) (pool : Pool) (data : Bytes) : AllocM (Pool × UInt32) :=
  internWithHash env pool data (env.hash64 data)

/-! ## The invariant -/

/-- The slot of the string at a place. -/
def slotAt (hash64 : Bytes → UInt64) (i : Nat) (s : Bytes) : PoolSlot :=
  { hash := poolMark (hash64 s), entryIndex := UInt32.ofNat i }

/-- The hash that a slot is placed by. -/
def PoolSlot.home (slot : PoolSlot) : Nat := slot.hash.toNat

/-- The pool holds the strings, each once, in this order. -/
structure PoolHolds (hash64 : Bytes → UInt64) (workerCount : UInt64) (strings : List Bytes)
    (pool : Pool) : Prop where
  buffer : pool.buffer.data = poolBytes strings
  nodup : strings.Nodup
  short : ∀ s ∈ strings, s.length ≤ lengthMax ∧ poolOffsetOf strings s ≤ lengthMax
  entries : pool.entries = strings.map fun s =>
    { poolOffset := UInt32.ofNat (poolOffsetOf strings s), length := UInt32.ofNat s.length }
  power : ∃ k, pool.slots.length = 2 ^ k
  used : pool.slotsUsed = strings.length
  load : strings.length * 4 < pool.slots.length * 3
  reach : Reachable PoolSlot.live PoolSlot.home pool.slots
  stored : (stored PoolSlot.live pool.slots).Perm (strings.mapIdx (slotAt hash64))
  workers : pool.workerCount = workerCount

theorem poolMark_ne_zero (rawHash : UInt64) : poolMark rawHash ≠ 0 := by
  unfold poolMark
  split
  · decide
  · assumption

theorem live_slotAt (hash64 : Bytes → UInt64) (i : Nat) (s : Bytes) :
    (slotAt hash64 i s).live = true := decide_eq_true (poolMark_ne_zero _)

/-- The mask of the slots is a remainder. -/
theorem slotHome_eq {slots : List PoolSlot} {k : Nat} (h : slots.length = 2 ^ k) (hash : UInt64) :
    slotHome hash slots = hash.toNat % slots.length := by
  rw [slotHome, h, Nat.and_two_pow_sub_one_eq_mod]

section

variable {hash64 : Bytes → UInt64} {workerCount : UInt64} {strings : List Bytes} {pool : Pool}

/-- The fixups are not part of the pool's strings. -/
theorem PoolHolds.fixups (h : PoolHolds hash64 workerCount strings pool) (fixupOffsets : List Nat)
    (fixupCapacity : Nat) :
    PoolHolds hash64 workerCount strings { pool with fixupOffsets, fixupCapacity } :=
  ⟨h.buffer, h.nodup, h.short, h.entries, h.power, h.used, h.load, h.reach, h.stored, h.workers⟩

/-- Nor is the number of workers. -/
theorem PoolHolds.withWorkers (h : PoolHolds hash64 workerCount strings pool)
    (workers : UInt64) : PoolHolds hash64 workers strings { pool with workerCount := workers } :=
  ⟨h.buffer, h.nodup, h.short, h.entries, h.power, h.used, h.load, h.reach, h.stored, rfl⟩

theorem PoolHolds.lt_of_getElem? (h : PoolHolds hash64 workerCount strings pool) {i : Nat} {s : Bytes}
    (hi : strings[i]? = some s) : i < 2 ^ 32 := by
  have hle := four_mul_le_poolOffsetOf h.nodup hi
  have hshort := (h.short s (List.mem_of_getElem? hi)).2
  simp only [lengthMax] at hshort
  omega

/-- The entry behind the slot of a string. -/
theorem PoolHolds.entry (h : PoolHolds hash64 workerCount strings pool) {i : Nat} {s : Bytes}
    (hi : strings[i]? = some s) :
    pool.entries[(slotAt hash64 i s).entryIndex.toNat]? =
      some { poolOffset := UInt32.ofNat (poolOffsetOf strings s),
             length := UInt32.ofNat s.length } := by
  have hidx : (UInt32.ofNat i).toNat = i := by
    have hlt := h.lt_of_getElem? hi
    rw [UInt32.toNat_ofNat']
    exact Nat.mod_eq_of_lt hlt
  rw [slotAt, hidx, h.entries, List.getElem?_map, hi, Option.map_some]

/-- The bytes behind the entry of a string. -/
theorem PoolHolds.fetch (h : PoolHolds hash64 workerCount strings pool) {s : Bytes} (hs : s ∈ strings) :
    Lib.fetch pool.buffer.data ((UInt32.ofNat (poolOffsetOf strings s)).toNat + 4) s.length
      = some s := by
  have hshort := (h.short s hs).2
  have hoff : (UInt32.ofNat (poolOffsetOf strings s)).toNat = poolOffsetOf strings s := by
    rw [UInt32.toNat_ofNat']
    exact Nat.mod_eq_of_lt (by simp only [lengthMax] at hshort; omega)
  have hat := hasAt_record hs
  rw [record, List.append_assoc, hasAt_append, hasAt_append, length_leBytes] at hat
  have hlt := poolOffsetOf_lt hs
  rw [length_record] at hlt
  have hle := le_alignUpNat (show 0 < 4 by omega) s.length
  rw [hoff, h.buffer]
  exact hat.2.1.fetch (by omega)

/-- A stored slot matches a string exactly when it is the slot of that string. -/
theorem PoolHolds.slotMatches_iff (h : PoolHolds hash64 workerCount strings pool) {data : Bytes}
    (hdata : data.length ≤ lengthMax) {slot : PoolSlot}
    (hslot : slot ∈ Lib.stored PoolSlot.live pool.slots) :
    slotMatches pool data (poolMark (hash64 data)) slot = true ↔
      ∃ i, strings[i]? = some data ∧ slot = slotAt hash64 i data := by
  have hmem : slot ∈ strings.mapIdx (slotAt hash64) := h.stored.mem_iff.mp hslot
  obtain ⟨i, hi, rfl⟩ := List.mem_mapIdx.mp hmem
  have hget : strings[i]? = some strings[i] := List.getElem?_eq_getElem hi
  have hs : strings[i] ∈ strings := List.getElem_mem hi
  have hshort := (h.short _ hs).1
  simp only [slotMatches, h.entry hget]
  constructor
  · intro hmatch
    have hboth := (Bool.and_eq_true_iff.mp hmatch).2
    obtain ⟨hlen, hbytes⟩ := Bool.and_eq_true_iff.mp hboth
    have hlen' : strings[i].length = data.length := by
      have htoNat := congrArg UInt32.toNat (of_decide_eq_true hlen)
      rw [UInt32.toNat_ofNat', UInt32.toNat_ofNat'] at htoNat
      simp only [lengthMax] at hshort hdata
      omega
    have heq : strings[i] = data := by
      rcases Bool.or_eq_true_iff.mp hbytes with hzero | hfetch
      · have hnil : data.length = 0 := of_decide_eq_true hzero
        rw [List.length_eq_zero_iff.mp hnil]
        exact List.length_eq_zero_iff.mp (hlen'.trans hnil)
      · have hfetch' := of_decide_eq_true hfetch
        rw [← hlen', h.fetch hs] at hfetch'
        exact Option.some.inj hfetch'
    exact ⟨i, heq ▸ hget, by rw [heq]⟩
  · rintro ⟨j, hj, hslot'⟩
    have hij : i = j := by
      have hindex := congrArg (fun s => s.entryIndex.toNat) hslot'
      simp only [slotAt, UInt32.toNat_ofNat'] at hindex
      have hlti := h.lt_of_getElem? hget
      have hltj := h.lt_of_getElem? hj
      omega
    subst hij
    rw [hget] at hj
    obtain heq := Option.some.inj hj
    rw [heq] at hs ⊢
    simp only [slotAt, decide_true, Bool.true_and, h.fetch hs, Bool.or_true]

theorem PoolHolds.length_stored (h : PoolHolds hash64 workerCount strings pool) :
    (Lib.stored PoolSlot.live pool.slots).length < pool.slots.length := by
  have hload := h.load
  rw [h.stored.length_eq, List.length_mapIdx]
  omega

/-- The search of the pool: it finds a string that is there, and ends at a free place for
one that is not. -/
theorem PoolHolds.probe (h : PoolHolds hash64 workerCount strings pool) {data : Bytes}
    (hdata : data.length ≤ lengthMax) :
    (∃ i, strings[i]? = some data ∧
      Lib.probe PoolSlot.live (slotMatches pool data (poolMark (hash64 data))) pool.slots
        pool.slots.length (slotHome (poolMark (hash64 data)) pool.slots)
        = .hit (slotAt hash64 i data)) ∨
    (data ∉ strings ∧ ∃ place,
      Lib.probe PoolSlot.live (slotMatches pool data (poolMark (hash64 data))) pool.slots
        pool.slots.length (slotHome (poolMark (hash64 data)) pool.slots) = .vacant place) := by
  obtain ⟨k, hk⟩ := h.power
  have hpos : 0 < pool.slots.length := by rw [hk]; exact Nat.two_pow_pos k
  rw [slotHome_eq hk]
  cases hprobe : Lib.probe PoolSlot.live (slotMatches pool data (poolMark (hash64 data)))
      pool.slots pool.slots.length ((poolMark (hash64 data)).toNat % pool.slots.length) with
  | endless => exact absurd hprobe (probe_ne_endless h.length_stored _)
  | hit slot =>
    obtain ⟨hstored, hhit⟩ := probe_hit_mem hpos hprobe
    obtain ⟨i, hi, rfl⟩ := (h.slotMatches_iff hdata hstored).mp hhit
    exact .inl ⟨i, hi, rfl⟩
  | vacant place =>
    refine .inr ⟨fun hin => ?_, place, rfl⟩
    obtain ⟨i, hi⟩ := List.mem_iff_getElem?.mp hin
    have hstored : slotAt hash64 i data ∈ Lib.stored PoolSlot.live pool.slots := by
      refine h.stored.mem_iff.mpr (List.mem_mapIdx.mpr ?_)
      obtain ⟨hlt, hget⟩ := List.getElem?_eq_some_iff.mp hi
      exact ⟨i, hlt, by rw [hget]⟩
    have hmiss := probe_vacant_complete h.reach hprobe hstored rfl
    rw [(h.slotMatches_iff hdata hstored).mpr ⟨i, hi, rfl⟩] at hmiss
    cases hmiss

end

/-! ## Growth -/

/-- A search for a free place finds one when not all are taken. -/
theorem probe_free (slots : List PoolSlot)
    (h : (stored PoolSlot.live slots).length < slots.length) (start : Nat) :
    ∃ place, Lib.probe PoolSlot.live (fun _ => false) slots slots.length (start % slots.length)
      = .vacant place := by
  cases hprobe : Lib.probe PoolSlot.live (fun _ => false) slots slots.length
      (start % slots.length) with
  | endless => exact absurd hprobe (probe_ne_endless h start)
  | hit slot => cases (probe_hit_mem (by omega) hprobe).2
  | vacant place => exact ⟨place, rfl⟩

theorem reinsertSlots_yields {k : Nat} (rest : List PoolSlot) :
    ∀ {slots : List PoolSlot}, slots.length = 2 ^ k →
      Reachable PoolSlot.live PoolSlot.home slots →
        (stored PoolSlot.live slots).length + (stored PoolSlot.live rest).length < slots.length →
          ∃ slots', Yields (reinsertSlots slots rest) (.ok slots') ∧ slots'.length = 2 ^ k ∧
            Reachable PoolSlot.live PoolSlot.home slots' ∧
            (stored PoolSlot.live slots').Perm
              (stored PoolSlot.live rest ++ stored PoolSlot.live slots) := by
  induction rest with
  | nil => exact fun hlen hreach _ => ⟨_, yields_pure _, hlen, hreach, List.Perm.refl _⟩
  | cons old rest ih =>
    intro slots hlen hreach hroom
    rw [reinsertSlots]
    by_cases hlive : old.live = true
    · have hcons : stored PoolSlot.live (old :: rest) = old :: stored PoolSlot.live rest :=
        List.filter_cons_of_pos hlive
      rw [hcons, List.length_cons] at hroom
      obtain ⟨place, hplace⟩ := probe_free slots (by omega) old.hash.toNat
      obtain ⟨hreach', hperm⟩ :=
        hreach.set (by omega) hlive hplace
      have hlen' : (slots.set place old).length = slots.length := List.length_set
      obtain ⟨slots', hyields, hslots', hr, hp⟩ := ih (hlen'.trans hlen) hreach' (by
        rw [hperm.length_eq, List.length_cons, hlen']
        omega)
      refine ⟨slots', ?_, hslots', hr, ?_⟩
      · rw [if_pos hlive, slotHome_eq hlen, hplace]
        exact hyields
      · rw [hcons]
        exact hp.trans ((hperm.append_left _).trans List.perm_middle)
    · have hcons : stored PoolSlot.live (old :: rest) = stored PoolSlot.live rest :=
        List.filter_cons_of_neg hlive
      rw [hcons] at hroom ⊢
      rw [if_neg hlive]
      exact ih hlen hreach hroom

/-- The grown table holds the same slots. -/
theorem slotsGrow_yields {env : Env} (henv : env.Succeeds) (pool : Pool) (k : Nat)
    (hroom : (stored PoolSlot.live pool.slots).length < 2 ^ k) :
    ∃ slots, Yields (slotsGrow env pool (2 ^ k)) (.ok { pool with slots }) ∧
      slots.length = 2 ^ k ∧ Reachable PoolSlot.live PoolSlot.home slots ∧
      (stored PoolSlot.live slots).Perm (stored PoolSlot.live pool.slots) := by
  obtain ⟨hreach, hstored⟩ := reachable_replicate PoolSlot.live PoolSlot.home
    { hash := 0, entryIndex := 0 } rfl (2 ^ k)
  obtain ⟨slots, hyields, hlen, hr, hp⟩ := reinsertSlots_yields pool.slots
    (List.length_replicate) hreach (by
      rw [hstored, List.length_replicate, List.length_nil]
      omega)
  rw [hstored, List.append_nil] at hp
  exact ⟨slots, (allocate_yields henv).bind (hyields.bind (yields_pure _)), hlen, hr, hp⟩

theorem poolInit_yields {env : Env} (henv : env.Succeeds) (hash64 : Bytes → UInt64)
    (initialCapacity : Nat) :
    ∃ pool, Yields (poolInit env initialCapacity) (.ok pool) ∧ PoolHolds hash64 0 [] pool ∧
      pool.fixupOffsets = [] := by
  obtain ⟨slots, hyields, hlen, hreach, hperm⟩ := slotsGrow_yields henv
    { buffer := { data := [], capacity := if initialCapacity < 4096 then 4096 else initialCapacity }
      entries := [], entriesCapacity := 0, slots := [], slotsUsed := 0
      fixupOffsets := [], fixupCapacity := 0, workerCount := 0 } 9 (by simp [stored])
  refine ⟨_, Yields.bind (a := { data := [], capacity := _ }) ?_ hyields, ?_, rfl⟩
  · rw [bufferInit, if_neg (by split <;> omega)]
    exact (allocate_yields henv).bind (yields_pure _)
  · exact {
      buffer := rfl
      nodup := List.nodup_nil
      short := fun _ h => absurd h List.not_mem_nil
      entries := rfl
      power := ⟨9, hlen⟩
      used := rfl
      load := by
        change 0 * 4 < slots.length * 3
        omega
      reach := hreach
      stored := hperm
      workers := rfl }

/-! ## Use of a string -/

theorem entriesReserve_yields {env : Env} (henv : env.Succeeds) (pool : Pool) (required : Nat) :
    ∃ entriesCapacity,
      Yields (entriesReserve env pool required) (.ok { pool with entriesCapacity }) := by
  unfold entriesReserve
  split
  · exact ⟨pool.entriesCapacity, yields_pure _⟩
  · exact ⟨_, (allocate_yields henv).bind (yields_pure _)⟩

/-- A new record goes to the end of the buffer. -/
theorem appendRecord_yields {env : Env} (henv : env.Succeeds) (pool : Pool) (data : Bytes)
    (halign : 4 ∣ pool.buffer.data.length) :
    ∃ capacity entriesCapacity, Yields (appendRecord env pool data) (.ok { pool with
      buffer := { data := pool.buffer.data ++ record data, capacity }
      entries := pool.entries ++ [{
        poolOffset := UInt32.ofNat pool.buffer.data.length
        length := UInt32.ofNat data.length }]
      entriesCapacity }) := by
  obtain ⟨c₁, hc₁, h₁⟩ := bufferAppend_yields henv pool.buffer (leBytes 4 data.length)
  have htext : ∃ c, (pool.buffer.data ++ leBytes 4 data.length ++ data).length ≤ c ∧ Yields
      (if data.length ≠ 0 then
        bufferAppend env { data := pool.buffer.data ++ leBytes 4 data.length, capacity := c₁ } data
      else pure { data := pool.buffer.data ++ leBytes 4 data.length, capacity := c₁ })
      (.ok { data := pool.buffer.data ++ leBytes 4 data.length ++ data, capacity := c }) := by
    by_cases hempty : data.length = 0
    · have hnil : data = [] := List.length_eq_zero_iff.mp hempty
      subst hnil
      rw [if_neg (not_not.mpr hempty), List.append_nil]
      exact ⟨c₁, hc₁, yields_pure _⟩
    · rw [if_pos hempty]
      exact bufferAppend_yields henv
        { data := pool.buffer.data ++ leBytes 4 data.length, capacity := c₁ } data
  obtain ⟨c₂, hc₂, h₂⟩ := htext
  obtain ⟨c₃, -, h₃⟩ := bufferAlignTo_yields henv
    (b := { data := pool.buffer.data ++ leBytes 4 data.length ++ data, capacity := c₂ }) hc₂ 4
  have hpad : alignUpNat (pool.buffer.data ++ leBytes 4 data.length ++ data).length 4
      - (pool.buffer.data ++ leBytes 4 data.length ++ data).length
      = alignUpNat data.length 4 - data.length := by
    rw [List.length_append, alignUpNat_add (by omega) (by
      rw [List.length_append, length_leBytes]
      exact Nat.dvd_add halign (Nat.dvd_refl 4))]
    omega
  obtain ⟨c₄, h₄⟩ := entriesReserve_yields henv { pool with
    buffer := { data := pool.buffer.data ++ leBytes 4 data.length ++ data
        ++ List.replicate (alignUpNat data.length 4 - data.length) 0, capacity := c₃ } }
    (pool.entries.length + 1)
  rw [hpad] at h₃
  refine ⟨c₃, c₄, ?_⟩
  have hrecord : pool.buffer.data ++ record data = pool.buffer.data ++ leBytes 4 data.length
      ++ data ++ List.replicate (alignUpNat data.length 4 - data.length) 0 := by
    simp only [record, List.append_assoc]
  rw [hrecord]
  exact h₁.bind (h₂.bind (h₃.bind (h₄.bind (yields_pure _))))

theorem mapIdx_slotAt_append (hash64 : Bytes → UInt64) (strings : List Bytes) (data : Bytes) :
    (strings ++ [data]).mapIdx (slotAt hash64) =
      strings.mapIdx (slotAt hash64) ++ [slotAt hash64 strings.length data] := by
  rw [List.mapIdx_append, List.mapIdx_singleton]
  simp only [Nat.zero_add]

/-- What `reserveSlot` leaves alone, and the place it finds. -/
theorem reserveSlot_yields {env : Env} (henv : env.Succeeds) (pool : Pool) {hash : UInt64}
    {place k : Nat} {hit : PoolSlot → Bool} (hlen : pool.slots.length = 2 ^ k)
    (hreach : Reachable PoolSlot.live PoolSlot.home pool.slots)
    (hload : (stored PoolSlot.live pool.slots).length = pool.slotsUsed)
    (hroom : pool.slotsUsed * 4 < pool.slots.length * 3)
    (hplace : Lib.probe PoolSlot.live hit pool.slots pool.slots.length
      (hash.toNat % pool.slots.length) = .vacant place) :
    ∃ slots place', Yields (reserveSlot env pool hash place) (.ok ({ pool with slots }, place')) ∧
      (∃ k', slots.length = 2 ^ k') ∧ (pool.slotsUsed + 1) * 4 < slots.length * 3 ∧
      ∀ new : PoolSlot, new.live = true → new.hash = hash →
        Reachable PoolSlot.live PoolSlot.home (slots.set place' new) ∧
        (stored PoolSlot.live (slots.set place' new)).Perm
          (new :: stored PoolSlot.live pool.slots) := by
  by_cases hgrow : (pool.slotsUsed + 1) * 4 ≥ pool.slots.length * 3
  · have hdouble : pool.slots.length * 2 = 2 ^ (k + 1) := by rw [hlen, Nat.pow_succ]
    have hless : (stored PoolSlot.live pool.slots).length < 2 ^ (k + 1) := by
      rw [hload, ← hdouble]
      omega
    obtain ⟨slots, hyields, hslots, hr, hp⟩ := slotsGrow_yields henv pool (k + 1) hless
    have hpos : 0 < slots.length := by rw [hslots]; exact Nat.two_pow_pos _
    obtain ⟨place', hplace'⟩ := probe_free slots
      (by rw [hp.length_eq, hslots]; exact hless) hash.toNat
    refine ⟨slots, place', ?_, ⟨k + 1, hslots⟩, ?_, fun new hnew hhash => ?_⟩
    · rw [reserveSlot, if_pos hgrow, hdouble]
      refine hyields.bind ?_
      rw [slotHome_eq (k := k + 1) hslots, hplace']
      exact yields_pure _
    · rw [hslots, ← hdouble]
      have hk := Nat.two_pow_pos k
      rw [hlen] at hroom ⊢
      rcases Nat.eq_zero_or_pos pool.slotsUsed with hnone | hsome <;> omega
    · subst hhash
      obtain ⟨hr', hp'⟩ := hr.set hpos hnew hplace'
      exact ⟨hr', hp'.trans (hp.cons new)⟩
  · refine ⟨pool.slots, place, ?_, ⟨k, hlen⟩, by omega, fun new hnew hhash => ?_⟩
    · rw [reserveSlot, if_neg hgrow]
      exact yields_pure _
    · subst hhash
      exact hreach.set (by omega) hnew hplace

/-- A use of a string that fits: its offset, and a pool that holds it. -/
theorem internWithHash_yields {env : Env} (henv : env.Succeeds) {workerCount : UInt64}
    {strings : List Bytes} {pool : Pool} (h : PoolHolds env.hash64 workerCount strings pool) {data : Bytes}
    (hdata : data.length ≤ lengthMax)
    (hroom : data ∉ strings → pool.buffer.data.length ≤ lengthMax) :
    ∃ pool', Yields (internWithHash env pool data (env.hash64 data))
        (.ok (pool', UInt32.ofNat (poolOffsetOf (internString strings data) data))) ∧
      PoolHolds env.hash64 workerCount (internString strings data) pool' ∧
      pool'.fixupOffsets = pool.fixupOffsets := by
  rw [internWithHash, if_neg (Nat.not_lt.mpr hdata)]
  -- the probe ends at the slot of the string, or at a vacant one
  rcases h.probe hdata with ⟨i, hi, hprobe⟩ | ⟨hnot, place, hprobe⟩
  · refine ⟨pool, ?_, ?_, rfl⟩
    · simp only [hprobe, h.entry hi]
      rw [internString, if_pos (List.mem_of_getElem? hi)]
      exact yields_pure _
    · rwa [internString, if_pos (List.mem_of_getElem? hi)]
  · have hfits := hroom hnot
    have hlength : pool.buffer.data.length = (poolBytes strings).length := by rw [h.buffer]
    simp only [hprobe, if_neg (Nat.not_lt.mpr hfits)]
    rw [internString, if_neg hnot, poolOffsetOf_append_of_notMem hnot]
    obtain ⟨c, ec, hrecord⟩ := appendRecord_yields henv pool data
      (by rw [hlength]; exact dvd_length_poolBytes strings)
    obtain ⟨k, hk⟩ := h.power
    rw [slotHome_eq hk] at hprobe
    -- the table may grow for the new string, and then the place is another
    obtain ⟨slots, place', hreserve, hpower, hload, hset⟩ := reserveSlot_yields henv
      { pool with
        buffer := { data := pool.buffer.data ++ record data, capacity := c }
        entries := pool.entries ++ [{
          poolOffset := UInt32.ofNat pool.buffer.data.length
          length := UInt32.ofNat data.length }]
        entriesCapacity := ec }
      hk h.reach (by rw [h.stored.length_eq, List.length_mapIdx, h.used])
      (by rw [h.used]; exact h.load) hprobe
    have hentries : pool.entries.length = strings.length := by rw [h.entries, List.length_map]
    obtain ⟨hreach', hstored'⟩ := hset (slotAt env.hash64 strings.length data)
      (live_slotAt _ _ _) rfl
    refine ⟨{ pool with
      buffer := { data := pool.buffer.data ++ record data, capacity := c }
      entries := pool.entries ++ [{
        poolOffset := UInt32.ofNat pool.buffer.data.length
        length := UInt32.ofNat data.length }]
      entriesCapacity := ec
      slots := slots.set place' (slotAt env.hash64 pool.entries.length data)
      slotsUsed := pool.slotsUsed + 1 }, hrecord.bind (hreserve.bind ?_), ?_, ?_⟩
    · rw [← hlength]
      exact yields_pure _
    · exact {
        buffer := by rw [poolBytes_append, h.buffer]; simp [poolBytes]
        nodup := by
          rw [List.nodup_append]
          exact ⟨h.nodup, List.nodup_singleton _, by
            rintro a ha b hb rfl
            exact hnot (List.mem_singleton.mp hb ▸ ha)⟩
        -- the addresses of the strings before it stay
        short := by
          intro s hs
          rcases List.mem_append.mp hs with hs | hs
          · rw [poolOffsetOf_append_of_mem hs]
            exact h.short s hs
          · obtain rfl := List.mem_singleton.mp hs
            rw [poolOffsetOf_append_of_notMem hnot, ← hlength]
            exact ⟨hdata, hfits⟩
        entries := by
          rw [List.map_append, List.map_singleton, poolOffsetOf_append_of_notMem hnot, ← hlength]
          have hold : strings.map (fun s => ({
              poolOffset := UInt32.ofNat (poolOffsetOf (strings ++ [data]) s)
              length := UInt32.ofNat s.length } : PoolEntry)) = pool.entries := by
            rw [h.entries]
            exact List.map_congr_left fun s hs => by rw [poolOffsetOf_append_of_mem hs]
          rw [hold]
        power := by
          obtain ⟨k', hk'⟩ := hpower
          exact ⟨k', List.length_set.trans hk'⟩
        used := by
          rw [List.length_append, List.length_singleton]
          exact congrArg (· + 1) h.used
        load := by
          rw [List.length_append, List.length_singleton, List.length_set, ← h.used]
          exact hload
        reach := by rw [hentries]; exact hreach'
        stored := by
          rw [hentries, mapIdx_slotAt_append]
          exact hstored'.trans ((h.stored.cons _).trans (List.perm_append_singleton _ _).symm)
        workers := h.workers }
    · rfl

/-- A new string is refused when its record would start above 2^32. -/
theorem internWithHash_overflow {env : Env} {workerCount : UInt64} {strings : List Bytes}
    {pool : Pool} (h : PoolHolds env.hash64 workerCount strings pool) {data : Bytes}
    (hdata : data.length ≤ lengthMax) (hnot : data ∉ strings) (hfull : lengthMax < pool.buffer.data.length) :
    Yields (internWithHash env pool data (env.hash64 data))
      (.error (.error .stringPoolOverflow4GB)) := by
  rw [internWithHash, if_neg (Nat.not_lt.mpr hdata)]
  rcases h.probe hdata with ⟨i, hi, -⟩ | ⟨-, place, hprobe⟩
  · exact absurd (List.mem_of_getElem? hi) hnot
  · simp only [hprobe, if_pos hfull]
    exact yields_throw _

theorem recordFixup_yields {env : Env} (henv : env.Succeeds) (pool : Pool) (nodeOffset : Nat) :
    ∃ fixupCapacity, Yields (recordFixup env pool nodeOffset) (.ok { pool with
      fixupCapacity, fixupOffsets := pool.fixupOffsets ++ [nodeOffset] }) := by
  unfold recordFixup
  split
  · exact ⟨_, (allocate_yields henv).bind (yields_pure _)⟩
  · exact ⟨pool.fixupCapacity, yields_pure _⟩

end Hrbl
