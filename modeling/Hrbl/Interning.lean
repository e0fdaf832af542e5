import Hrbl.Pool
import Hrbl.PoolScan

/-!
# Runs of interning

The pool after any sequence of `bc_hrbl_encoder_pool_intern` calls, whatever the allocator
answers: as long as the calls succeed it holds the distinct strings in the order of their
first use, and a call that does not succeed ends with an error code.
-/

namespace Hrbl

open Lib

variable {workerCount : UInt64}

/-! ## An allocator that refuses -/

/-- The environment without refusals. -/
def Env.spared (env : Env) : Env :=
  { env with
    arenaAllocates := fun _ => true
    poolAllocates := fun _ => true
    threadCreates := fun _ => true }

theorem Env.spared_succeeds (env : Env) : env.spared.Succeeds :=
  ⟨fun _ => rfl, fun _ => rfl, fun _ => rfl⟩

/-- What a refused allocation ends with. -/
def IsOom (e : Failure) : Prop := e = .error .oom

section

variable (env : Env)

theorem allocate_spared : AnswersAs IsOom (allocate env) (allocate env.spared) := by
  intro calls
  by_cases hallocated : env.poolAllocates calls.pool = true
  · refine .inr ⟨.ok (), allocate_yields env.spared_succeeds,
      { calls with pool := calls.pool + 1 }, ?_⟩
    rw [allocate, if_pos hallocated]
  · refine .inl ⟨.error .oom, { calls with pool := calls.pool + 1 }, ?_, rfl⟩
    rw [allocate, if_neg hallocated]

theorem bufferInit_spared (initialCapacity : Nat) :
    AnswersAs IsOom (bufferInit env initialCapacity) (bufferInit env.spared initialCapacity) :=
  AnswersAs.ite (AnswersAs.pure _) ((allocate_spared env).bind fun _ => AnswersAs.pure _)

theorem bufferReserve_spared (b : EncoderBuffer) (required : Nat) :
    AnswersAs IsOom (bufferReserve env b required) (bufferReserve env.spared b required) :=
  AnswersAs.ite (AnswersAs.pure _) ((allocate_spared env).bind fun _ => AnswersAs.pure _)

theorem bufferAppend_spared (b : EncoderBuffer) (data : Bytes) :
    AnswersAs IsOom (bufferAppend env b data) (bufferAppend env.spared b data) :=
  (bufferReserve_spared env b _).bind fun _ => AnswersAs.pure _

theorem bufferAlignTo_spared (b : EncoderBuffer) (alignment : Nat) :
    AnswersAs IsOom (bufferAlignTo env b alignment) (bufferAlignTo env.spared b alignment) :=
  AnswersAs.ite (AnswersAs.pure _) (bufferAppend_spared env b _)

theorem entriesReserve_spared (pool : Pool) (required : Nat) :
    AnswersAs IsOom (entriesReserve env pool required) (entriesReserve env.spared pool required) :=
  AnswersAs.ite (AnswersAs.pure _) ((allocate_spared env).bind fun _ => AnswersAs.pure _)

/-- The old slots are put into the table without an allocation. -/
theorem reinsertSlots_answers (slots old : List PoolSlot) :
    ∃ answer, Yields (reinsertSlots slots old) answer := by
  induction old generalizing slots with
  | nil => exact ⟨_, yields_pure slots⟩
  | cons slot rest ih =>
    rw [reinsertSlots]
    split
    · split
      · exact ih _
      · exact ⟨_, yields_throw _⟩
      · exact ⟨_, yields_throw _⟩
    · exact ih slots

theorem slotsGrow_spared (pool : Pool) (newCapacity : Nat) :
    AnswersAs IsOom (slotsGrow env pool newCapacity) (slotsGrow env.spared pool newCapacity) := by
  refine (allocate_spared env).bind fun _ => ?_
  obtain ⟨answer, hyields⟩ := reinsertSlots_answers
    (List.replicate newCapacity { hash := 0, entryIndex := 0 }) pool.slots
  exact (AnswersAs.of_yields hyields hyields).bind fun _ => AnswersAs.pure _

theorem poolInit_spared (initialCapacity : Nat) :
    AnswersAs IsOom (poolInit env initialCapacity) (poolInit env.spared initialCapacity) :=
  (bufferInit_spared env _).bind fun _ => slotsGrow_spared env _ _

theorem appendRecord_spared (pool : Pool) (data : Bytes) :
    AnswersAs IsOom (appendRecord env pool data) (appendRecord env.spared pool data) :=
  (bufferAppend_spared env _ _).bind fun _ =>
    (AnswersAs.ite (bufferAppend_spared env _ _) (AnswersAs.pure _)).bind fun _ =>
      (bufferAlignTo_spared env _ _).bind fun _ =>
        (entriesReserve_spared env _ _).bind fun _ => AnswersAs.pure _

theorem reserveSlot_spared (pool : Pool) (hash : UInt64) (place : Nat) :
    AnswersAs IsOom (reserveSlot env pool hash place) (reserveSlot env.spared pool hash place) := by
  refine AnswersAs.ite ((slotsGrow_spared env _ _).bind fun grown => ?_) (AnswersAs.pure _)
  split
  · exact AnswersAs.pure _
  · exact AnswersAs.throw _
  · exact AnswersAs.throw _

theorem intern_spared (pool : Pool) (data : Bytes) :
    AnswersAs IsOom (intern env pool data) (intern env.spared pool data) := by
  refine AnswersAs.ite (AnswersAs.throw _) ?_
  have hhash : env.spared.hash64 data = env.hash64 data := rfl
  rw [hhash]
  split
  · exact AnswersAs.throw _
  · split
    · exact AnswersAs.pure _
    · exact AnswersAs.throw _
  · refine AnswersAs.ite (AnswersAs.throw _) ?_
    exact (appendRecord_spared env pool data).bind fun _ =>
      (reserveSlot_spared env _ _ _).bind fun _ => AnswersAs.pure _

end

/-! ## One call -/

/-- A call on a pool that holds strings returns the offset of its own string and leaves a pool
that holds that string as well, or it ends with an error code. -/
theorem intern_cases {env : Env} {strings : List Bytes} {pool : Pool}
    (h : PoolHolds env.hash64 workerCount strings pool) (data : Bytes) (calls : Calls) :
    (∃ pool' calls', intern env pool data calls =
        .ok (pool', UInt32.ofNat (poolOffsetOf (internString strings data) data)) calls' ∧
      PoolHolds env.hash64 workerCount (internString strings data) pool') ∨
    ∃ code calls', intern env pool data calls = .error (.error code) calls' := by
  -- an answer without refusals is the answer, or a refusal is
  have hcases : ∀ {answer}, Yields (intern env.spared pool data) answer →
      (∃ e calls', intern env pool data calls = .error e calls' ∧ IsOom e) ∨ _ :=
    fun hyields => (intern_spared env pool data).cases hyields calls
  have hrefused : (∃ e calls', intern env pool data calls = .error e calls' ∧ IsOom e) →
      ∃ code calls', intern env pool data calls = .error (.error code) calls' := by
    rintro ⟨e, calls', herror, rfl⟩
    exact ⟨.oom, calls', herror⟩
  by_cases hdata : data.length ≤ lengthMax
  · by_cases hroom : data ∉ strings → pool.buffer.data.length ≤ lengthMax
    · obtain ⟨pool', hyields, hholds, -⟩ :=
        internWithHash_yields env.spared_succeeds h hdata hroom
      rcases hcases hyields with herror | ⟨calls', hok⟩
      · exact .inr (hrefused herror)
      · exact .inl ⟨pool', calls', hok, hholds⟩
    · -- a new record would start above 2^32
      obtain ⟨hnot, hfull⟩ := Classical.not_imp.mp hroom
      have hspared : PoolHolds env.spared.hash64 workerCount strings pool := h
      have hyields := internWithHash_overflow hspared hdata hnot (not_le.mp hfull)
      rcases hcases hyields with herror | ⟨calls', hfailed⟩
      · exact .inr (hrefused herror)
      · exact .inr ⟨_, calls', hfailed⟩
  · refine .inr ⟨.stringLengthOverflow4GB, calls, ?_⟩
    rw [intern, internWithHash, if_pos (not_le.mp hdata)]
    rfl

theorem poolInit_cases (env : Env) (initialCapacity : Nat) (calls : Calls) :
    (∃ pool calls', poolInit env initialCapacity calls = .ok pool calls' ∧
      PoolHolds env.hash64 0 [] pool) ∨
    ∃ code calls', poolInit env initialCapacity calls = .error (.error code) calls' := by
  obtain ⟨pool, hyields, hholds, -⟩ :=
    poolInit_yields env.spared_succeeds env.hash64 initialCapacity
  rcases (poolInit_spared env initialCapacity).cases hyields calls with
    ⟨e, calls', herror, rfl⟩ | ⟨calls', hok⟩
  · exact .inr ⟨.oom, calls', herror⟩
  · exact .inl ⟨pool, calls', hok, hholds⟩

/-! ## Runs -/

/-- A sequence of calls, and the offsets they return. -/
def internEach (env : Env) (pool : Pool) : List Bytes → AllocM (Pool × List UInt32)
  | [] => return (pool, [])
  | data :: uses => do
    let (pool, offset) ← intern env pool data
    let (pool, offsets) ← internEach env pool uses
    return (pool, offset :: offsets)

/-- Calls that all succeed leave a pool of all their strings, and return their offsets. -/
theorem internEach_cases {env : Env} {strings : List Bytes} {pool : Pool}
    (h : PoolHolds env.hash64 workerCount strings pool) (uses : List Bytes) (calls : Calls) :
    (∃ pool' calls', internEach env pool uses calls =
        .ok (pool', uses.map fun s => UInt32.ofNat (poolOffsetOf (internAll strings uses) s))
          calls' ∧
      PoolHolds env.hash64 workerCount (internAll strings uses) pool') ∨
    ∃ code calls', internEach env pool uses calls = .error (.error code) calls' := by
  induction uses generalizing strings pool calls with
  | nil => exact .inl ⟨pool, calls, rfl, h⟩
  | cons data uses ih =>
    have hbind : internEach env pool (data :: uses) calls = EStateM.bind (intern env pool data)
        (fun p => EStateM.bind (internEach env p.1 uses) fun q =>
          (pure (q.1, p.2 :: q.2) : AllocM _)) calls := rfl
    rw [hbind, EStateM.bind]
    rcases intern_cases h data calls with ⟨pool₁, calls₁, hok, hholds⟩ | ⟨code, calls₁, herror⟩
    · rw [hok]
      dsimp only
      rw [EStateM.bind]
      rcases ih hholds calls₁ with ⟨pool₂, calls₂, hrest, hall⟩ | ⟨code, calls₂, herror⟩
      · -- later strings do not move this one
        have hkept : poolOffsetOf (internAll strings (data :: uses)) data =
            poolOffsetOf (internString strings data) data :=
          poolOffsetOf_prefix (prefix_internAll _ _) (mem_internString strings data)
        refine .inl ⟨pool₂, calls₂, ?_, hall⟩
        rw [hrest, List.map_cons, hkept]
        rfl
      · exact .inr ⟨code, calls₂, by rw [herror]⟩
    · exact .inr ⟨code, calls₁, by rw [herror]⟩

/-- With memory, and with strings and a pool below 2^32, all calls succeed. -/
theorem internEach_yields {env : Env} (henv : env.Succeeds) {strings : List Bytes} {pool : Pool}
    (h : PoolHolds env.hash64 workerCount strings pool) {uses : List Bytes}
    (hlengths : ∀ s ∈ uses, s.length ≤ lengthMax) (hfit : UsesFit strings uses) :
    ∃ pool', Yields (internEach env pool uses)
      (.ok (pool', uses.map fun s => UInt32.ofNat (poolOffsetOf (internAll strings uses) s))) := by
  induction uses generalizing strings pool with
  | nil => exact ⟨pool, yields_pure _⟩
  | cons data uses ih =>
    obtain ⟨hdata, hrest⟩ := List.forall_mem_cons.mp hlengths
    have hroom : data ∉ strings → pool.buffer.data.length ≤ lengthMax := by
      rw [h.buffer]
      exact hfit.1
    obtain ⟨pool₁, hintern, hholds, -⟩ := internWithHash_yields henv h hdata hroom
    obtain ⟨pool₂, hmore⟩ := ih hholds hrest hfit.2
    have hkept : poolOffsetOf (internAll strings (data :: uses)) data =
        poolOffsetOf (internString strings data) data :=
      poolOffsetOf_prefix (prefix_internAll _ _) (mem_internString strings data)
    refine ⟨pool₂, ?_⟩
    rw [List.map_cons, hkept]
    exact hintern.bind (hmore.bind (yields_pure _))

theorem interning_yields {env : Env} (henv : env.Succeeds) (initialCapacity : Nat)
    {uses : List Bytes} (hlengths : ∀ s ∈ uses, s.length ≤ lengthMax) (hfit : UsesFit [] uses) :
    ∃ pool, Yields (do let pool ← poolInit env initialCapacity; internEach env pool uses)
      (.ok (pool, uses.map fun s => UInt32.ofNat (poolOffsetOf (internAll [] uses) s))) := by
  obtain ⟨pool, hinit, hholds, -⟩ := poolInit_yields henv env.hash64 initialCapacity
  obtain ⟨pool', hrun⟩ := internEach_yields henv hholds hlengths hfit
  exact ⟨pool', hinit.bind hrun⟩

/-- Strings of one hash, some of them twice, and the empty one. -/
example : ∃ pool, Yields (do
      let pool ← poolInit (.succeeding fun _ => 7) 4
      internEach (.succeeding fun _ => 7) pool [[0x61], [0x62], [0x61], [], [0x62]])
    (.ok (pool, [0, 8, 0, 16, 8])) := by
  refine interning_yields (Env.succeeding_succeeds fun _ => 7) 4 (by decide) ?_
  exact ⟨fun _ => by decide, fun _ => by decide, fun _ => by decide, fun _ => by decide,
    fun _ => by decide, trivial⟩

/-! ## The distinct strings -/

theorem nodup_internAll (uses : List Bytes) : (internAll [] uses).Nodup := by
  induction uses using List.reverseRecOn with
  | nil => exact List.nodup_nil
  | append_singleton uses s ih =>
    rw [internAll_append, internAll, List.foldl_cons, List.foldl_nil, internString]
    split
    · exact ih
    · rename_i hnot
      refine List.nodup_append.mpr ⟨ih, List.nodup_singleton s, ?_⟩
      intro a ha b hb hab
      rw [List.mem_singleton.mp hb] at hab
      exact hnot (hab ▸ ha)

/-- The strings stand in the order of their first uses. -/
theorem internAll_firstUse (uses : List Bytes) :
    (internAll [] uses).Pairwise fun s t => uses.idxOf s < uses.idxOf t := by
  induction uses using List.reverseRecOn with
  | nil => exact List.Pairwise.nil
  | append_singleton uses u ih =>
    have hmem : ∀ s, s ∈ internAll [] uses → s ∈ uses := fun s hs =>
      (mem_internAll.mp hs).resolve_left List.not_mem_nil
    have hkept : (internAll [] uses).Pairwise fun s t =>
        (uses ++ [u]).idxOf s < (uses ++ [u]).idxOf t := by
      refine ih.imp_of_mem fun hs ht hlt => ?_
      rwa [List.idxOf_append_of_mem (hmem _ hs), List.idxOf_append_of_mem (hmem _ ht)]
    rw [internAll_append, internAll, List.foldl_cons, List.foldl_nil, internString]
    split
    · exact hkept
    · rename_i hnot
      have hnew : u ∉ uses := fun hu => hnot (mem_internAll.mpr (.inr hu))
      refine List.pairwise_append.mpr ⟨hkept, List.pairwise_singleton _ _, fun s hs t ht => ?_⟩
      rw [List.mem_singleton.mp ht, List.idxOf_append_of_mem (hmem s hs),
        List.idxOf_append_of_notMem hnew]
      have hlt := List.idxOf_lt_length_of_mem (hmem s hs)
      omega

/-- Two strings at one place are one string. -/
theorem record_inj_at {file : Bytes} {place : Nat} {s t : Bytes} (hs : s.length ≤ lengthMax)
    (ht : t.length ≤ lengthMax) (hat : HasAt file place (record s))
    (hat' : HasAt file place (record t)) : s = t := by
  obtain ⟨rest, hrest⟩ := hat
  obtain ⟨rest', hrest'⟩ := hat'
  exact (record_append_inj hs ht (hrest.trans hrest'.symm)).1

/-- From an initialised pool, calls that all succeed leave the records of the distinct strings in
the order of their first use, with one entry for each; every offset is that of the record of its
own string, and two calls return one offset exactly for one string. A sequence that does not
succeed ends with an error code: no search is endless. -/
theorem interning_run (env : Env) (initialCapacity : Nat) (uses : List Bytes) (calls : Calls) :
    match (do let pool ← poolInit env initialCapacity; internEach env pool uses : AllocM _) calls
      with
    | .ok (pool, offsets) _ => ∃ strings : List Bytes,
        (strings.Nodup ∧ (∀ s, s ∈ strings ↔ s ∈ uses) ∧
          strings.Pairwise fun s t => uses.idxOf s < uses.idxOf t) ∧
        pool.buffer.data = strings.flatMap record ∧ pool.entries.length = strings.length ∧
        offsets.length = uses.length ∧
        (∀ (i : Nat) (s : Bytes) (o : UInt32), uses[i]? = some s → offsets[i]? = some o →
          HasAt pool.buffer.data o.toNat (record s)) ∧
        ∀ (i j : Nat) (s t : Bytes) (o p : UInt32), uses[i]? = some s → uses[j]? = some t →
          offsets[i]? = some o → offsets[j]? = some p → (o = p ↔ s = t)
    | .error e _ => ∃ code, e = .error code := by
  have hbind : (do let pool ← poolInit env initialCapacity; internEach env pool uses : AllocM _)
      calls = EStateM.bind (poolInit env initialCapacity) (fun pool => internEach env pool uses)
        calls := rfl
  rw [hbind, EStateM.bind]
  rcases poolInit_cases env initialCapacity calls with
    ⟨pool, calls₁, hok, hholds⟩ | ⟨code, calls₁, herror⟩
  · rw [hok]
    dsimp only
    rcases internEach_cases hholds uses calls₁ with
      ⟨pool', calls₂, hrun, hall⟩ | ⟨code, calls₂, herror⟩
    · rw [hrun]
      dsimp only
      have hmem : ∀ s, s ∈ internAll [] uses ↔ s ∈ uses := by
        intro s
        rw [mem_internAll]
        exact or_iff_right List.not_mem_nil
      -- where the record of a use is
      have hplace : ∀ (i : Nat) (s : Bytes) (o : UInt32), uses[i]? = some s →
          (uses.map fun s => UInt32.ofNat (poolOffsetOf (internAll [] uses) s))[i]? = some o →
          s.length ≤ lengthMax ∧ o = UInt32.ofNat (poolOffsetOf (internAll [] uses) s) ∧
            HasAt pool'.buffer.data o.toNat (record s) := by
        intro i s o hs ho
        rw [List.getElem?_map, hs, Option.map_some] at ho
        cases ho
        have hin := (hmem s).mpr (List.mem_of_getElem? hs)
        obtain ⟨hlength, hoffset⟩ := hall.short s hin
        have hat := hasAt_record hin
        simp only [lengthMax] at hoffset
        rw [UInt32.toNat_ofNat', Nat.mod_eq_of_lt (by omega), hall.buffer]
        exact ⟨hlength, rfl, hat⟩
      refine ⟨internAll [] uses, ⟨nodup_internAll uses, hmem, internAll_firstUse uses⟩,
        hall.buffer, ?_, List.length_map _, fun i s o hs ho => (hplace i s o hs ho).2.2, ?_⟩
      · rw [hall.entries, List.length_map]
      · intro i j s t o p hs ht ho hp
        obtain ⟨hslength, hsoffset, hsat⟩ := hplace i s o hs ho
        obtain ⟨htlength, htoffset, htat⟩ := hplace j t p ht hp
        constructor
        · rintro rfl
          exact record_inj_at hslength htlength hsat htat
        · rintro rfl
          rw [hsoffset, htoffset]
    · rw [herror]
      exact ⟨code, rfl⟩
  · rw [herror]
    exact ⟨code, rfl⟩

end Hrbl
