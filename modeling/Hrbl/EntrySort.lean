import Hrbl.Writer
import Hrbl.Lib.Ambient
import Hrbl.Lib.StableSort

/-!
# The entry sorts

`bc_hrbl_encoder_pending_sort` and the three algorithms behind it: insertion sort up to
32 entries, radix sort by the bytes of the hash above, and the same with threads from
10000 entries on. Each of them is the stable sort by `key_hash64`, so all agree.
-/

namespace Hrbl

open Lib

/-! ## Calls that can fail -/

/-- How the encoder stops: with an error code, at an access outside of an object, or not
at all. -/
inductive Failure where
  | error (code : WriterError)
  | fault
  | diverges
deriving Repr, DecidableEq

/-- A computation that only allocates and creates threads. -/
abbrev AllocM := EStateM Failure Calls

/-- `bc_allocators_pool_allocate` or `_reallocate`, and the error its callers make of a
refusal. -/
def allocate (env : Env) : AllocM Unit := fun calls =>
  if env.poolAllocates calls.pool then .ok () { calls with pool := calls.pool + 1 }
  else .error (.error .oom) { calls with pool := calls.pool + 1 }

/-- `pthread_create`. -/
def createThread (env : Env) : AllocM Unit := fun calls =>
  if env.threadCreates calls.thread then .ok () { calls with thread := calls.thread + 1 }
  else .error (.error .internal) { calls with thread := calls.thread + 1 }

theorem allocate_yields {env : Env} (henv : env.Succeeds) : Yields (allocate env) (.ok ()) :=
  fun calls => ⟨{ calls with pool := calls.pool + 1 }, by simp [allocate, henv.pool]⟩

theorem createThread_yields {env : Env} (henv : env.Succeeds) :
    Yields (createThread env) (.ok ()) :=
  fun calls => ⟨{ calls with thread := calls.thread + 1 }, by simp [createThread, henv.thread]⟩

/-! ## Insertion sort -/

/-- The inner loop: entries with a greater hash than the pivot's move up one place.
Returns the place for the pivot. -/
def insertionShift (pivot : Entry) : List Entry → Nat → List Entry × Nat
  | entries, 0 => (entries, 0)
  | entries, j + 1 =>
    match entries[j]? with
    | some e =>
      if e.keyHash64 > pivot.keyHash64 then insertionShift pivot (entries.set (j + 1) e) j
      else (entries, j + 1)
    | none => (entries, j + 1)

/-- The body of the outer loop. -/
def insertionStep (entries : List Entry) (i : Nat) : List Entry :=
  match entries[i]? with
  | some pivot =>
    let (entries, j) := insertionShift pivot entries i
    entries.set j pivot
  | none => entries

/-- The outer loop, from `i` for `n` turns. -/
def insertionLoop : List Entry → Nat → Nat → List Entry
  | entries, _, 0 => entries
  | entries, i, n + 1 => insertionLoop (insertionStep entries i) (i + 1) n

/-! ## Radix sort -/

/-- `(key_hash64 >> shift) & 0xFF`. -/
def digitOf (shift : UInt64) (e : Entry) : Nat := ((e.keyHash64 >>> shift) &&& 0xFF).toNat

/-- `counts[256]` after the counting loop. -/
def countDigits (shift : UInt64) (source : List Entry) : Nat → Nat :=
  source.foldl (fun counts e =>
    Function.update counts (digitOf shift e) (counts (digitOf shift e) + 1)) fun _ => 0

/-- `prefix[i]`. -/
def prefixSum (counts : Nat → Nat) : Nat → Nat
  | 0 => 0
  | i + 1 => prefixSum counts i + counts i

/-- The stores of the scattering loop, each to the next position of its byte. -/
def scatterStores (shift : UInt64) : (Nat → Nat) → List Entry → List ScatterWrite
  | _, [] => []
  | positions, e :: source =>
    (positions (digitOf shift e), e) ::
      scatterStores shift
        (Function.update positions (digitOf shift e) (positions (digitOf shift e) + 1)) source

/-- One pass: what `dst` holds after it. -/
def radixPass (shift : UInt64) (src dst : List Entry) : List Entry :=
  applyStores dst (scatterStores shift (prefixSum (countDigits shift src)) src)

/-- The passes from `pass` on, `src` and `dst` changing places after each. -/
def radixPasses (pass : Nat) : Nat → List Entry × List Entry → List Entry × List Entry
  | 0, buffers => buffers
  | n + 1, (src, dst) =>
    radixPasses (pass + 1) n (radixPass (UInt64.ofNat (pass * 8)) src dst, src)

/-- An entry of zeros; what fresh memory holds is never read. -/
def Entry.zero : Entry := { keyHash64 := 0, keyPoolOffset := 0, keyLength := 0, valueOffset := 0 }

/-- `bc_hrbl_encoder_pending_radix_sort_serial`. After eight passes the result is back
in `entries`. -/
def radixSortSerial (env : Env) (entries : List Entry) : AllocM (List Entry) := do
  allocate env
  return (radixPasses 0 8 (entries, List.replicate entries.length Entry.zero)).1

/-! ## Radix sort with threads -/

/-- `range_start` and `range_end` of a worker, as the entries between them. -/
def workerRange (source : List Entry) (workerCount worker : Nat) : List Entry :=
  let chunkSize := source.length / workerCount
  let rangeStart := worker * chunkSize
  let rangeEnd := if worker + 1 = workerCount then source.length else (worker + 1) * chunkSize
  (source.drop rangeStart).take (rangeEnd - rangeStart)

/-- The loop over the workers for one bucket: `write_position` before each of them. -/
def writePosition (runningTotal : Nat) (counts : Nat → Nat) : Nat → Nat
  | 0 => runningTotal
  | worker + 1 => writePosition runningTotal counts worker + counts worker

/-- The loop over the buckets: `running_total` before each of them. -/
def runningTotal (workerCount : Nat) (localCounts : Nat → Nat → Nat) : Nat → Nat
  | 0 => 0
  | bucket + 1 =>
    writePosition (runningTotal workerCount localCounts bucket)
      (fun worker => localCounts worker bucket) workerCount

/-- `contexts[worker].local_write_positions[bucket]`. -/
def localWritePosition (workerCount : Nat) (localCounts : Nat → Nat → Nat)
    (worker bucket : Nat) : Nat :=
  writePosition (runningTotal workerCount localCounts bucket)
    (fun worker => localCounts worker bucket) worker

/-- What a worker stores in one pass. -/
def workerStores (shift : UInt64) (source : List Entry) (workerCount worker : Nat) :
    List ScatterWrite :=
  let localCounts := fun worker => countDigits shift (workerRange source workerCount worker)
  scatterStores shift (localWritePosition workerCount localCounts worker)
    (workerRange source workerCount worker)

/-- `sizeof(bc_hrbl_encoder_radix_worker_context_t)`. -/
def contextSize : UInt64 := 4136

/-- `sizeof(pthread_t)`. -/
def threadSize : UInt64 := 8

/-- An access to one of the elements of an array that so many bytes have been allocated for. -/
def accessElement (bytes elementSize : UInt64) (index : Nat) : AllocM Unit :=
  if (index + 1) * elementSize.toNat ≤ bytes.toNat then return () else throw .fault

/-- The loop over the workers from `workerIndex` on, for so many turns: the worker's context is
stored to, and its thread is created. The sizes of the two arrays are products in `size_t`. -/
def createThreads (env : Env) (workerCount : UInt64) (workerIndex : Nat) : Nat → AllocM Unit
  | 0 => return ()
  | n + 1 => do
    accessElement (workerCount * contextSize) contextSize workerIndex
    accessElement (workerCount * threadSize) threadSize workerIndex
    createThread env
    createThreads env workerCount (workerIndex + 1) n

/-- One pass: a thread for each worker to count, and one to scatter; the latter run at
once. -/
def radixPassParallel (env : Env) (workerCount shift : UInt64)
    (source destination : List Entry) : AllocM (List Entry) := do
  createThreads env workerCount 0 workerCount.toNat
  let started ← get
  createThreads env workerCount 0 workerCount.toNat
  let stores := (List.range workerCount.toNat).map (workerStores shift source workerCount.toNat)
  return applyStores destination (env.interleave started.thread stores)

def radixPassesParallel (env : Env) (workerCount : UInt64) (pass : Nat) :
    Nat → List Entry × List Entry → AllocM (List Entry × List Entry)
  | 0, buffers => return buffers
  | n + 1, (source, destination) => do
    let sorted ← radixPassParallel env workerCount (UInt64.ofNat (pass * 8)) source destination
    radixPassesParallel env workerCount (pass + 1) n (sorted, source)

/-- `bc_hrbl_encoder_pending_radix_sort_parallel`. The allocations are of the scratch
entries, as many bytes as the entries themselves, of `worker_count * sizeof(context)` bytes
and of `worker_count * sizeof(pthread_t)` bytes. -/
def radixSortParallel (env : Env) (entries : List Entry) (workerCount : UInt64) :
    AllocM (List Entry) := do
  allocate env
  allocate env
  allocate env
  let buffers ← radixPassesParallel env workerCount 0 8
    (entries, List.replicate entries.length Entry.zero)
  return buffers.1

/-! ## Selection -/

/-- `bc_hrbl_encoder_pending_radix_sort`. -/
def radixSort (env : Env) (entries : List Entry) (workerCount : UInt64) :
    AllocM (List Entry) :=
  if workerCount ≥ 2 ∧ entries.length ≥ 10000 then radixSortParallel env entries workerCount
  else radixSortSerial env entries

/-- `bc_hrbl_encoder_pending_sort`. -/
def pendingSort (env : Env) (entries : List Entry) (workerCount : UInt64) :
    AllocM (List Entry) :=
  if entries.length < 2 then return entries
  else if entries.length ≤ 32 then return insertionLoop entries 1 (entries.length - 1)
  else radixSort env entries workerCount

/-! ## Insertion sort is stable -/

/-- The key the entries are sorted by. -/
def Entry.hash (e : Entry) : Nat := e.keyHash64.toNat

/-- The place of the pivot is behind the entries whose hash is not greater. -/
theorem insertionShift_eq (pivot g : Entry) (before rest : List Entry) :
    ∃ kept moved hole, before = kept ++ moved ∧ (∀ e ∈ moved, pivot.hash < e.hash) ∧
      (∀ e ∈ kept.getLast?, e.hash ≤ pivot.hash) ∧
      insertionShift pivot (before ++ g :: rest) before.length
        = (kept ++ hole :: (moved ++ rest), kept.length) := by
  induction before using List.reverseRecOn generalizing g rest with
  | nil => exact ⟨[], [], g, rfl, by simp, by simp, rfl⟩
  | append_singleton before e ih =>
    have hget : (before ++ [e] ++ g :: rest)[before.length]? = some e := by
      rw [List.append_assoc, List.getElem?_append_right (Nat.le_refl _), Nat.sub_self]
      rfl
    rw [List.length_append, List.length_singleton, insertionShift, hget]
    simp only
    by_cases hgt : e.keyHash64 > pivot.keyHash64
    · have hset : (before ++ [e] ++ g :: rest).set (before.length + 1) e
          = before ++ e :: e :: rest := by
        rw [List.append_assoc, List.set_append_right _ _ (Nat.le_add_right _ _),
          Nat.add_sub_cancel_left]
        rfl
      rw [if_pos hgt, hset]
      obtain ⟨kept, moved, hole, rfl, hmoved, hkept, heq⟩ := ih e (e :: rest)
      refine ⟨kept, moved ++ [e], hole, List.append_assoc kept moved [e], ?_, hkept, ?_⟩
      · intro x hx
        rcases List.mem_append.mp hx with hx | hx
        · exact hmoved x hx
        · rw [List.mem_singleton.mp hx]
          exact UInt64.lt_iff_toNat_lt.mp hgt
      · rw [heq, List.append_assoc]
        rfl
    · rw [if_neg hgt]
      refine ⟨before ++ [e], [], g, (List.append_nil _).symm, by simp, fun x hx => ?_, ?_⟩
      · rw [List.getLast?_concat] at hx
        cases hx
        exact UInt64.le_iff_toNat_le.mp (UInt64.not_lt.mp hgt)
      · rw [List.length_append, List.length_singleton]
        rfl

/-- One turn of the outer loop puts one more entry where it belongs. -/
theorem insertionStep_eq {input sorted : List Entry} (pivot : Entry) (rest : List Entry)
    (h : IsStableSort Entry.hash input sorted) :
    ∃ sorted', insertionStep (sorted ++ pivot :: rest) sorted.length = sorted' ++ rest ∧
      sorted'.length = sorted.length + 1 ∧
      IsStableSort Entry.hash (input ++ [pivot]) sorted' := by
  have hget : (sorted ++ pivot :: rest)[sorted.length]? = some pivot := by
    rw [List.getElem?_append_right (Nat.le_refl _), Nat.sub_self]
    rfl
  obtain ⟨kept, moved, hole, rfl, hmoved, hkept, heq⟩ := insertionShift_eq pivot pivot sorted rest
  have hset : (kept ++ hole :: (moved ++ rest)).set kept.length pivot
      = kept ++ pivot :: moved ++ rest := by
    rw [List.set_append_right _ _ (Nat.le_refl _), Nat.sub_self, List.set_cons_zero,
      List.append_assoc]
    rfl
  obtain ⟨hsorted, hstable⟩ := h
  obtain ⟨hks, hms, hkm⟩ := List.pairwise_append.mp hsorted
  -- everything that was kept is at most the last of it
  have hle : ∀ e ∈ kept, e.hash ≤ pivot.hash := by
    intro e he
    obtain ⟨front, last, hkeq⟩ : ∃ front last, kept = front ++ [last] :=
      ⟨kept.dropLast, kept.getLast (List.ne_nil_of_mem he), (List.dropLast_append_getLast _).symm⟩
    have hlast := hkept last (by rw [hkeq, List.getLast?_concat]; rfl)
    rw [hkeq] at he hks
    rcases List.mem_append.mp he with he | he
    · exact ((List.pairwise_append.mp hks).2.2 e he last (List.mem_singleton_self _)).trans hlast
    · rw [List.mem_singleton.mp he]
      exact hlast
  refine ⟨kept ++ pivot :: moved, ?_, ?_, ?_, fun k => ?_⟩
  · rw [insertionStep, hget]
    simp only [heq, hset]
  · simp only [List.length_append, List.length_cons]
    omega
  · refine List.pairwise_append.mpr ⟨hks, List.pairwise_cons.mpr
      ⟨fun e he => (hmoved e he).le, hms⟩, fun a ha b hb => ?_⟩
    rcases List.mem_cons.mp hb with rfl | hb
    · exact hle a ha
    · exact hkm a ha b hb
  · rw [List.filter_append, List.filter_append input, ← hstable, List.filter_append,
      List.append_assoc]
    by_cases hk : pivot.hash = k
    · have hnone : moved.filter (fun e => e.hash = k) = [] := by
        refine List.filter_eq_nil_iff.mpr fun e he heq => ?_
        have hlt := hmoved e he
        rw [of_decide_eq_true heq, hk] at hlt
        exact Nat.lt_irrefl _ hlt
      simp [hk, hnone]
    · simp [hk]

/-- The outer loop sorts what it has passed. -/
theorem insertionLoop_isStableSort {input sorted : List Entry} (rest : List Entry)
    (h : IsStableSort Entry.hash input sorted) :
    IsStableSort Entry.hash (input ++ rest)
      (insertionLoop (sorted ++ rest) sorted.length rest.length) := by
  induction rest generalizing input sorted with
  | nil =>
    rw [List.append_nil, List.append_nil]
    exact h
  | cons pivot rest ih =>
    obtain ⟨sorted', heq, hlen, hsorted'⟩ := insertionStep_eq pivot rest h
    rw [List.length_cons, insertionLoop, heq, ← hlen, List.append_cons]
    exact ih hsorted'

/-! ## Radix sort is stable -/

theorem countDigits_eq (shift : UInt64) (source : List Entry) (d : Nat) :
    countDigits shift source d = (source.filter fun e => digitOf shift e = d).length := by
  have hfold : ∀ (counts : Nat → Nat),
      (source.foldl (fun counts e =>
        Function.update counts (digitOf shift e) (counts (digitOf shift e) + 1)) counts) d
        = counts d + (source.filter fun e => digitOf shift e = d).length := by
    induction source with
    | nil => exact fun _ => rfl
    | cons e source ih =>
      intro counts
      rw [List.foldl_cons, ih, List.filter_cons]
      by_cases hd : digitOf shift e = d
      · subst hd
        rw [Function.update_self, if_pos (by simp), List.length_cons]
        omega
      · rw [Function.update_of_ne (Ne.symm hd), if_neg (by simp [hd])]
  rw [countDigits, hfold, Nat.zero_add]

theorem prefixSum_countDigits (shift : UInt64) (source : List Entry) (d : Nat) :
    prefixSum (countDigits shift source) d = slotOf (digitOf shift) source [] d := by
  rw [slotOf, List.filter_nil, List.length_nil, Nat.add_zero]
  induction d with
  | zero => rfl
  | succ d ih => rw [prefixSum, ih, countDigits_eq, bucketSort_succ, List.length_append]

/-- The stores of a segment go to the slots of its entries. -/
theorem mem_scatterStores {shift : UInt64} {all before segment : List Entry}
    {positions : Nat → Nat} (hpos : ∀ d, positions d = slotOf (digitOf shift) all before d)
    (store : ScatterWrite) :
    store ∈ scatterStores shift positions segment ↔
      ∃ front e back, segment = front ++ e :: back ∧
        store = (slotOf (digitOf shift) all (before ++ front) (digitOf shift e), e) := by
  induction segment generalizing before positions with
  | nil => simp [scatterStores]
  | cons e segment ih =>
    have hpos' : ∀ d, Function.update positions (digitOf shift e)
        (positions (digitOf shift e) + 1) d = slotOf (digitOf shift) all (before ++ [e]) d := by
      intro d
      rw [slotOf, List.filter_append, List.length_append]
      by_cases hd : d = digitOf shift e
      · subst hd
        rw [Function.update_self, hpos, slotOf, List.filter_cons_of_pos (by simp)]
        rfl
      · rw [Function.update_of_ne hd, hpos, slotOf,
          List.filter_cons_of_neg (by simp [Ne.symm hd])]
        rfl
    rw [scatterStores, List.mem_cons, ih hpos']
    constructor
    · rintro (rfl | ⟨front, x, back, rfl, rfl⟩)
      · exact ⟨[], e, segment, rfl, by rw [hpos, List.append_nil]⟩
      · exact ⟨e :: front, x, back, rfl, by rw [List.append_assoc]; rfl⟩
    · rintro ⟨front, x, back, hseg, rfl⟩
      cases front with
      | nil =>
        obtain ⟨rfl, -⟩ := List.cons.inj hseg
        exact .inl (by rw [hpos, List.append_nil])
      | cons y front =>
        obtain ⟨rfl, rfl⟩ := List.cons.inj hseg
        exact .inr ⟨front, x, back, rfl, by rw [List.append_assoc]; rfl⟩

theorem digitOf_lt (shift : UInt64) (e : Entry) : digitOf shift e < 256 := by
  have hmask : (0xFF : UInt64).toNat = 255 := rfl
  have hle : (e.keyHash64 >>> shift).toNat &&& 255 ≤ 255 := Nat.and_le_right
  rw [digitOf, UInt64.toNat_and, hmask]
  omega

/-- Stores that are exactly those to the slots sort by the digit. -/
theorem applyStores_slots {shift : UInt64} {source target : List Entry}
    {stores : List ScatterWrite} (hlen : target.length = source.length)
    (h : ∀ store, store ∈ stores ↔ ∃ front e back, source = front ++ e :: back ∧
      store = (slotOf (digitOf shift) source front (digitOf shift e), e)) :
    applyStores target stores = bucketSort (digitOf shift) 256 source := by
  refine applyStores_eq ?_ (fun store hstore => ?_) fun i hi => ?_
  · rw [length_bucketSort (digitOf_lt shift), hlen]
  · obtain ⟨front, e, back, rfl, rfl⟩ := (h store).mp hstore
    exact bucketSort_getElem?_slotOf front back e (digitOf_lt shift e)
  · obtain ⟨front, e, back, hsource, hslot⟩ := exists_slotOf_eq hi
    exact ⟨e, (h _).mpr ⟨front, e, back, hsource, by rw [hslot]⟩⟩

theorem radixPass_eq {shift : UInt64} {src dst : List Entry} (hlen : dst.length = src.length) :
    radixPass shift src dst = bucketSort (digitOf shift) 256 src :=
  applyStores_slots hlen fun store => mem_scatterStores (prefixSum_countDigits shift src) store

theorem digitOf_pass {pass : Nat} (hpass : pass < 8) (e : Entry) :
    digitOf (UInt64.ofNat (pass * 8)) e = e.hash / 256 ^ pass % 256 := by
  have hshift : (UInt64.ofNat (pass * 8)).toNat % 64 = pass * 8 := by
    rw [UInt64.toNat_ofNat']
    omega
  have hmask : (0xFF : UInt64).toNat = 2 ^ 8 - 1 := rfl
  have hpow : 2 ^ (pass * 8) = 256 ^ pass := by
    rw [Nat.mul_comm, Nat.pow_mul]
  rw [digitOf, UInt64.toNat_and, UInt64.toNat_shiftRight, hshift, hmask,
    Nat.and_two_pow_sub_one_eq_mod, Nat.shiftRight_eq_div_pow, hpow]
  rfl

/-- A pass that sorts by its byte adds that byte to the sorted ones. -/
theorem isStableSort_pass {input mid : List Entry} {pass : Nat} (hpass : pass < 8)
    (h : IsStableSort (fun e => e.hash % 256 ^ pass) input mid) :
    IsStableSort (fun e => e.hash % 256 ^ (pass + 1)) input
      (bucketSort (digitOf (UInt64.ofNat (pass * 8))) 256 mid) := by
  have hdigit : digitOf (UInt64.ofNat (pass * 8)) = fun e => e.hash / 256 ^ pass % 256 :=
    funext (digitOf_pass hpass)
  rw [hdigit, Nat.pow_succ]
  exact isStableSort_digit (Nat.pow_pos (by omega)) (by omega) h

/-- All eight bytes are the hash. -/
theorem isStableSort_of_bytes {input output : List Entry}
    (h : IsStableSort (fun e => e.hash % 256 ^ 8) input output) :
    IsStableSort Entry.hash input output :=
  h.congr fun e => Nat.mod_eq_of_lt e.keyHash64.toNat_lt

theorem isStableSort_start (input : List Entry) :
    IsStableSort (fun e => e.hash % 256 ^ 0) input input where
  sorted := List.pairwise_of_forall fun a b => by rw [Nat.pow_zero, Nat.mod_one, Nat.mod_one]
  stable _ := rfl

theorem radixPasses_isStableSort {input src dst : List Entry} {pass n : Nat} (hn : pass + n = 8)
    (hlen : dst.length = src.length)
    (h : IsStableSort (fun e => e.hash % 256 ^ pass) input src) :
    IsStableSort Entry.hash input (radixPasses pass n (src, dst)).1 := by
  induction n generalizing pass src dst with
  | zero =>
    obtain rfl : pass = 8 := hn
    exact isStableSort_of_bytes h
  | succ n ih =>
    have hpass := isStableSort_pass (show pass < 8 by omega) h
    rw [radixPasses, radixPass_eq hlen]
    exact ih (by omega) (length_bucketSort (digitOf_lt _)).symm hpass

/-! ## The threads of one pass fill the buckets together -/

/-- The ranges of the workers before one of them are all there is before its own. -/
theorem workerRange_start (source : List Entry) {workerCount worker : Nat}
    (hworker : worker < workerCount) :
    source = source.take (worker * (source.length / workerCount))
      ++ workerRange source workerCount worker
      ++ source.drop (if worker + 1 = workerCount then source.length
          else (worker + 1) * (source.length / workerCount)) := by
  have hchunk : workerCount * (source.length / workerCount) ≤ source.length :=
    Nat.mul_div_le _ _
  have hstart : worker * (source.length / workerCount)
      ≤ (worker + 1) * (source.length / workerCount) := Nat.mul_le_mul_right _ (Nat.le_succ _)
  have hend : (worker + 1) * (source.length / workerCount)
      ≤ workerCount * (source.length / workerCount) := Nat.mul_le_mul_right _ hworker
  have hle : worker * (source.length / workerCount) ≤ (if worker + 1 = workerCount then
      source.length else (worker + 1) * (source.length / workerCount)) := by
    split <;> omega
  have hrange : source.drop (worker * (source.length / workerCount))
      = workerRange source workerCount worker ++ source.drop (if worker + 1 = workerCount then
          source.length else (worker + 1) * (source.length / workerCount)) := by
    have htail := List.take_append_drop ((if worker + 1 = workerCount then source.length
      else (worker + 1) * (source.length / workerCount))
        - worker * (source.length / workerCount))
      (source.drop (worker * (source.length / workerCount)))
    rw [List.drop_drop, Nat.add_sub_cancel' hle] at htail
    exact htail.symm
  rw [List.append_assoc, ← hrange, List.take_append_drop]

theorem take_workerRange {source : List Entry} {workerCount worker : Nat}
    (hworker : worker + 1 < workerCount) :
    source.take ((worker + 1) * (source.length / workerCount))
      = source.take (worker * (source.length / workerCount))
        ++ workerRange source workerCount worker := by
  have hne : worker + 1 ≠ workerCount := Nat.ne_of_lt hworker
  have hle : worker * (source.length / workerCount)
      ≤ (worker + 1) * (source.length / workerCount) := Nat.mul_le_mul_right _ (Nat.le_succ _)
  rw [workerRange, if_neg hne, ← List.take_add, Nat.add_sub_cancel' hle]

theorem take_lastRange {source : List Entry} {workerCount : Nat} :
    source.take (workerCount * (source.length / (workerCount + 1)))
      ++ workerRange source (workerCount + 1) workerCount = source := by
  have hstart := workerRange_start source (Nat.lt_succ_self workerCount)
  rw [if_pos rfl, List.drop_length, List.append_nil] at hstart
  exact hstart.symm

/-- The positions of a worker are the slots of its range. -/
theorem localWritePosition_eq {shift : UInt64} {source : List Entry} {workerCount : Nat}
    (hcount : 0 < workerCount) (bucket : Nat) :
    (∀ worker < workerCount,
      localWritePosition workerCount
        (fun worker => countDigits shift (workerRange source workerCount worker)) worker bucket
        = slotOf (digitOf shift) source
            (source.take (worker * (source.length / workerCount))) bucket) := by
  have hinner : ∀ (start : Nat) (b worker : Nat), worker < workerCount →
      writePosition start
        (fun worker => countDigits shift (workerRange source workerCount worker) b) worker
        = start + ((source.take (worker * (source.length / workerCount))).filter
            fun e => digitOf shift e = b).length := by
    intro start b worker hworker
    induction worker with
    | zero => simp [writePosition]
    | succ worker ih =>
      rw [writePosition, ih (by omega), take_workerRange hworker, List.filter_append,
        List.length_append, countDigits_eq, Nat.add_assoc]
  have houter : ∀ b, runningTotal workerCount
      (fun worker => countDigits shift (workerRange source workerCount worker)) b
      = (bucketSort (digitOf shift) b source).length := by
    intro b
    induction b with
    | zero => rfl
    | succ b ih =>
      obtain ⟨last, rfl⟩ : ∃ last, workerCount = last + 1 := ⟨workerCount - 1, by omega⟩
      rw [runningTotal, writePosition, hinner _ _ _ (Nat.lt_succ_self last), ih, bucketSort_succ,
        List.length_append, countDigits_eq, Nat.add_assoc, ← List.length_append,
        ← List.filter_append, take_lastRange]
  intro worker hworker
  rw [localWritePosition, hinner _ _ _ hworker, houter, slotOf]

/-- Every entry is in the range of a worker. -/
theorem exists_workerRange (front back : List Entry) (e : Entry) {workerCount : Nat}
    (hcount : 0 < workerCount) :
    ∃ worker < workerCount, ∃ seen rest,
      workerRange (front ++ e :: back) workerCount worker = seen ++ e :: rest ∧
      (front ++ e :: back).take (worker * ((front ++ e :: back).length / workerCount)) ++ seen
        = front := by
  generalize hchunk : (front ++ e :: back).length / workerCount = chunk
  have htotal : (front ++ e :: back).length = front.length + (back.length + 1) := by
    rw [List.length_append, List.length_cons]
  -- the worker whose range `front` ends in, or the last one
  obtain ⟨worker, hworker, hstart, hend⟩ : ∃ worker < workerCount, worker * chunk ≤ front.length ∧
      front.length < if worker + 1 = workerCount then (front ++ e :: back).length
        else (worker + 1) * chunk := by
    by_cases hlast : (workerCount - 1) * chunk ≤ front.length
    · refine ⟨workerCount - 1, by omega, hlast, ?_⟩
      rw [if_pos (by omega)]
      omega
    · have hpos : 0 < chunk := by
        rcases Nat.eq_zero_or_pos chunk with hzero | hpos
        · rw [hzero, Nat.mul_zero] at hlast
          omega
        · exact hpos
      have hlt : front.length / chunk < workerCount - 1 :=
        Nat.div_lt_of_lt_mul (by rw [Nat.mul_comm]; omega)
      refine ⟨front.length / chunk, by omega, Nat.div_mul_le_self _ _, ?_⟩
      rw [if_neg (by omega), Nat.mul_comm]
      exact Nat.lt_mul_div_succ _ hpos
  refine ⟨worker, hworker, front.drop (worker * chunk), ?_⟩
  rw [workerRange, hchunk]
  generalize (if worker + 1 = workerCount then (front ++ e :: back).length
    else (worker + 1) * chunk) = stop at hend
  refine ⟨back.take (stop - front.length - 1), ?_, ?_⟩
  · rw [List.drop_append_of_le_length hstart, List.take_append, List.length_drop,
      List.take_of_length_le (by rw [List.length_drop]; omega)]
    obtain ⟨k, hk⟩ : ∃ k, stop - worker * chunk - (front.length - worker * chunk) = k + 1 :=
      ⟨stop - front.length - 1, by omega⟩
    rw [hk, List.take_succ_cons]
    congr 3
    omega
  · rw [List.take_append_of_le_length hstart, List.take_append_drop]

/-- Together the workers store every entry to its slot, and nothing else. -/
theorem mem_workerStores {shift : UInt64} {source : List Entry} {workerCount : Nat}
    (hcount : 0 < workerCount) (store : ScatterWrite) :
    store ∈ ((List.range workerCount).map (workerStores shift source workerCount)).flatten ↔
      ∃ front e back, source = front ++ e :: back ∧
        store = (slotOf (digitOf shift) source front (digitOf shift e), e) := by
  have hworker : ∀ worker < workerCount, (store ∈ workerStores shift source workerCount worker ↔
      ∃ front e back, workerRange source workerCount worker = front ++ e :: back ∧
        store = (slotOf (digitOf shift) source
          (source.take (worker * (source.length / workerCount)) ++ front) (digitOf shift e), e)) :=
    fun worker hw => mem_scatterStores (fun d => localWritePosition_eq hcount d worker hw) store
  simp only [List.mem_flatten, List.mem_map, List.mem_range, exists_exists_and_eq_and]
  constructor
  · rintro ⟨worker, hw, hstore⟩
    obtain ⟨front, e, back, hrange, rfl⟩ := (hworker worker hw).mp hstore
    have hsource := workerRange_start source hw
    rw [hrange, List.append_assoc, List.append_assoc, ← List.append_assoc] at hsource
    exact ⟨_, e, _, hsource, rfl⟩
  · rintro ⟨front, e, back, rfl, rfl⟩
    obtain ⟨worker, hw, seen, rest, hrange, hfront⟩ := exists_workerRange front back e
      hcount
    exact ⟨worker, hw, (hworker worker hw).mpr ⟨seen, e, rest, hrange, by rw [hfront]⟩⟩

/-- Whatever the order in which the threads run, a pass with threads is a pass. -/
theorem applyStores_interleave (env : Env) (shift : UInt64) {source destination : List Entry}
    {workerCount : Nat} (hcount : 0 < workerCount) (hlen : destination.length = source.length)
    (turn : Nat) :
    applyStores destination (env.interleave turn
        ((List.range workerCount).map (workerStores shift source workerCount)))
      = bucketSort (digitOf shift) 256 source := by
  refine applyStores_slots hlen fun store => ?_
  rw [(env.interleave_perm turn _).mem_iff]
  exact mem_workerStores hcount store

/-! ## Every algorithm is the stable sort -/

/-- The sizes of the two arrays of the workers do not wrap. -/
def WorkersFit (workerCount : UInt64) : Prop := workerCount.toNat * 4136 < 2 ^ 64

instance (workerCount : UInt64) : Decidable (WorkersFit workerCount) :=
  inferInstanceAs (Decidable (_ < _))

theorem accessElement_yields {bytes elementSize : UInt64} {index : Nat}
    (h : (index + 1) * elementSize.toNat ≤ bytes.toNat) :
    Yields (accessElement bytes elementSize index) (.ok ()) := by
  rw [accessElement, if_pos h]
  exact yields_pure ()

/-- The contexts and the threads of all workers are inside of their arrays. -/
theorem WorkersFit.access {workerCount : UInt64} (h : WorkersFit workerCount) {workerIndex : Nat}
    (hindex : workerIndex < workerCount.toNat) :
    Yields (accessElement (workerCount * contextSize) contextSize workerIndex) (.ok ()) ∧
      Yields (accessElement (workerCount * threadSize) threadSize workerIndex) (.ok ()) := by
  have hcontext : contextSize.toNat = 4136 := rfl
  have hthread : threadSize.toNat = 8 := rfl
  unfold WorkersFit at h
  constructor
  · apply accessElement_yields
    rw [UInt64.toNat_mul, hcontext, Nat.mod_eq_of_lt h]
    omega
  · apply accessElement_yields
    rw [UInt64.toNat_mul, hthread, Nat.mod_eq_of_lt (by omega)]
    omega

theorem createThreads_yields {env : Env} (henv : env.Succeeds) {workerCount : UInt64}
    (hfit : WorkersFit workerCount) {workerIndex n : Nat}
    (hn : workerIndex + n ≤ workerCount.toNat) :
    Yields (createThreads env workerCount workerIndex n) (.ok ()) := by
  induction n generalizing workerIndex with
  | zero => exact yields_pure ()
  | succ n ih =>
    obtain ⟨hcontext, hthread⟩ := hfit.access (show workerIndex < workerCount.toNat by omega)
    exact hcontext.bind (hthread.bind ((createThread_yields henv).bind (ih (by omega))))

/-- An access is inside, or it is one outside of the array. -/
theorem accessElement_cases (bytes elementSize : UInt64) (index : Nat) :
    ((index + 1) * elementSize.toNat ≤ bytes.toNat ∧
      Yields (accessElement bytes elementSize index) (.ok ())) ∨
    Yields (accessElement bytes elementSize index) (.error .fault) := by
  by_cases h : (index + 1) * elementSize.toNat ≤ bytes.toNat
  · exact .inl ⟨h, accessElement_yields h⟩
  · right
    rw [accessElement, if_neg h]
    exact yields_throw _

/-- The loop over the workers comes to a context behind the end, if there is one. -/
theorem createThreads_fault {env : Env} (henv : env.Succeeds) {workerCount : UInt64}
    {workerIndex n : Nat} (hn : 0 < n)
    (houtside : (workerCount * contextSize).toNat < (workerIndex + n) * contextSize.toNat) :
    Yields (createThreads env workerCount workerIndex n) (.error .fault) := by
  induction n generalizing workerIndex with
  | zero => cases hn
  | succ n ih =>
    rw [createThreads]
    rcases accessElement_cases (workerCount * contextSize) contextSize workerIndex with
      ⟨hinside, hcontext⟩ | hfault
    · refine hcontext.bind ?_
      rcases accessElement_cases (workerCount * threadSize) threadSize workerIndex with
        ⟨-, hthread⟩ | hfault
      · refine hthread.bind ((createThread_yields henv).bind (ih ?_ ?_))
        · rcases Nat.eq_zero_or_pos n with rfl | hpos
          · exact absurd hinside (Nat.not_le.mpr houtside)
          · exact hpos
        · rwa [Nat.add_right_comm]
      · exact hfault.bind_error
    · exact hfault.bind_error

/-- Where the sizes wrap, not even the threads of the first pass are created. -/
theorem createThreads_wrapped {env : Env} (henv : env.Succeeds) {workerCount : UInt64}
    (hwrap : ¬WorkersFit workerCount) :
    Yields (createThreads env workerCount 0 workerCount.toNat) (.error .fault) := by
  unfold WorkersFit at hwrap
  have hcontext : contextSize.toNat = 4136 := rfl
  refine createThreads_fault henv (by omega) ?_
  have hlt := (workerCount * contextSize).toNat_lt
  rw [hcontext]
  omega

theorem radixPassParallel_yields {env : Env} (henv : env.Succeeds) {workerCount : UInt64}
    (hcount : 0 < workerCount.toNat) (hfit : WorkersFit workerCount) {shift : UInt64}
    {source destination : List Entry} (hlen : destination.length = source.length) :
    Yields (radixPassParallel env workerCount shift source destination)
      (.ok (bucketSort (digitOf shift) 256 source)) := by
  have hthreads := createThreads_yields henv hfit (Nat.zero_add workerCount.toNat).le
  refine hthreads.bind (yields_get_bind fun calls => hthreads.bind ?_)
  have hpass := applyStores_interleave env shift hcount hlen calls.thread
  rw [← hpass]
  exact yields_pure _

theorem radixPassesParallel_yields {env : Env} (henv : env.Succeeds) {workerCount : UInt64}
    (hcount : 0 < workerCount.toNat) (hfit : WorkersFit workerCount)
    {input source destination : List Entry} {pass n : Nat} (hn : pass + n = 8) (hlen : destination.length = source.length)
    (h : IsStableSort (fun e => e.hash % 256 ^ pass) input source) :
    ∃ sorted scratch, IsStableSort Entry.hash input sorted ∧
      Yields (radixPassesParallel env workerCount pass n (source, destination))
        (.ok (sorted, scratch)) := by
  induction n generalizing pass source destination with
  | zero =>
    obtain rfl : pass = 8 := hn
    exact ⟨source, destination, isStableSort_of_bytes h, yields_pure _⟩
  | succ n ih =>
    have hpass := isStableSort_pass (show pass < 8 by omega) h
    obtain ⟨sorted, scratch, hsorted, hyields⟩ :=
      ih (by omega) (length_bucketSort (digitOf_lt _)).symm hpass
    exact ⟨sorted, scratch, hsorted,
      (radixPassParallel_yields henv hcount hfit hlen).bind hyields⟩

/-- The outer loop over all of a list. -/
theorem insertionLoop_eq (entries : List Entry) :
    insertionLoop entries 1 (entries.length - 1) = stableSort Entry.hash entries := by
  have hspec := isStableSort_stableSort Entry.hash entries
  cases entries with
  | nil => rfl
  | cons e rest =>
    have hone : IsStableSort Entry.hash [e] [e] := ⟨List.pairwise_singleton _ e, fun _ => rfl⟩
    exact IsStableSort.unique (insertionLoop_isStableSort rest hone) hspec

theorem radixSortSerial_yields {env : Env} (henv : env.Succeeds) (entries : List Entry) :
    Yields (radixSortSerial env entries) (.ok (stableSort Entry.hash entries)) := by
  have hsorted := radixPasses_isStableSort (show 0 + 8 = 8 from rfl)
    (List.length_replicate : (List.replicate entries.length Entry.zero).length = _)
    (isStableSort_start entries)
  rw [← hsorted.unique (isStableSort_stableSort Entry.hash entries)]
  exact (allocate_yields henv).bind (yields_pure _)

theorem radixSortParallel_yields {env : Env} (henv : env.Succeeds) (entries : List Entry)
    {workerCount : UInt64} (hcount : 0 < workerCount.toNat) (hfit : WorkersFit workerCount) :
    Yields (radixSortParallel env entries workerCount) (.ok (stableSort Entry.hash entries)) := by
  obtain ⟨sorted, scratch, hsorted, hyields⟩ := radixPassesParallel_yields henv hcount hfit
    (show 0 + 8 = 8 from rfl)
    (List.length_replicate : (List.replicate entries.length Entry.zero).length = _)
    (isStableSort_start entries)
  rw [← hsorted.unique (isStableSort_stableSort Entry.hash entries)]
  exact (allocate_yields henv).bind ((allocate_yields henv).bind
    ((allocate_yields henv).bind (hyields.bind (yields_pure sorted))))

theorem radixSortParallel_wrapped {env : Env} (henv : env.Succeeds) (entries : List Entry)
    {workerCount : UInt64} (hwrap : ¬WorkersFit workerCount) :
    Yields (radixSortParallel env entries workerCount) (.error .fault) := by
  have hpass : Yields (radixPassParallel env workerCount (UInt64.ofNat (0 * 8)) entries
      (List.replicate entries.length Entry.zero)) (.error .fault) :=
    (createThreads_wrapped henv hwrap).bind_error
  have hpasses : Yields (radixPassesParallel env workerCount 0 8
      (entries, List.replicate entries.length Entry.zero)) (.error .fault) := hpass.bind_error
  exact (allocate_yields henv).bind ((allocate_yields henv).bind
    ((allocate_yields henv).bind hpasses.bind_error))

/-- So many entries are sorted with so many workers: they are too few for threads, or the sizes
of the workers' arrays do not wrap. -/
def Sortable (workerCount : UInt64) (count : Nat) : Prop :=
  count < 10000 ∨ WorkersFit workerCount

instance (workerCount : UInt64) (count : Nat) : Decidable (Sortable workerCount count) :=
  inferInstanceAs (Decidable (_ ∨ _))

/-- `pending_sort` leaves the stable sort by `key_hash64`, whichever algorithm runs. -/
theorem pendingSort_yields {env : Env} (henv : env.Succeeds) {entries : List Entry}
    {workerCount : UInt64} (hsortable : Sortable workerCount entries.length) :
    Yields (pendingSort env entries workerCount) (.ok (stableSort Entry.hash entries)) := by
  unfold pendingSort
  by_cases htwo : entries.length < 2
  · rw [if_pos htwo]
    -- the loop has nothing to do
    have hloop := insertionLoop_eq entries
    rw [show entries.length - 1 = 0 by omega, insertionLoop] at hloop
    rw [← hloop]
    exact yields_pure entries
  rw [if_neg htwo]
  by_cases hsmall : entries.length ≤ 32
  · rw [if_pos hsmall, insertionLoop_eq]
    exact yields_pure _
  rw [if_neg hsmall, radixSort]
  split
  · rename_i hparallel
    have htwo : (2 : UInt64).toNat ≤ workerCount.toNat := UInt64.le_iff_toNat_le.mp hparallel.1
    refine radixSortParallel_yields henv entries (Nat.lt_of_lt_of_le (by decide) htwo) ?_
    exact hsortable.resolve_left (Nat.not_lt.mpr hparallel.2)
  · exact radixSortSerial_yields henv entries

/-- And it stores outside of the array of the contexts in all other cases. -/
theorem pendingSort_wrapped {env : Env} (henv : env.Succeeds) {entries : List Entry}
    {workerCount : UInt64} (hwrap : ¬Sortable workerCount entries.length) :
    Yields (pendingSort env entries workerCount) (.error .fault) := by
  unfold Sortable WorkersFit at hwrap
  have htwo : workerCount ≥ 2 := by
    rw [ge_iff_le, UInt64.le_iff_toNat_le]
    change 2 ≤ workerCount.toNat
    omega
  rw [pendingSort, if_neg (by omega), if_neg (by omega), radixSort, if_pos ⟨htwo, by omega⟩]
  exact radixSortParallel_wrapped henv entries fun hfit => hwrap (.inr hfit)

/-! ## The positions of one pass -/

theorem length_scatterStores (shift : UInt64) (positions : Nat → Nat) (source : List Entry) :
    (scatterStores shift positions source).length = source.length := by
  induction source generalizing positions with
  | nil => rfl
  | cons e source ih => rw [scatterStores, List.length_cons, List.length_cons, ih]

/-- The ranges of the workers, one behind the other, are all there is. -/
theorem flatten_workerRange (source : List Entry) {workerCount : Nat} (hcount : 0 < workerCount) :
    ((List.range workerCount).map (workerRange source workerCount)).flatten = source := by
  have hfront : ∀ worker < workerCount,
      ((List.range worker).map (workerRange source workerCount)).flatten =
        source.take (worker * (source.length / workerCount)) := by
    intro worker hworker
    induction worker with
    | zero => rw [Nat.zero_mul, List.take_zero]; rfl
    | succ worker ih =>
      rw [List.range_succ, List.map_append, List.flatten_append, ih (by omega),
        take_workerRange hworker]
      exact congrArg _ (List.append_nil _)
  obtain ⟨last, rfl⟩ : ∃ last, workerCount = last + 1 := ⟨workerCount - 1, by omega⟩
  rw [List.range_succ, List.map_append, List.flatten_append, hfront last (Nat.lt_succ_self last)]
  have hlast : source.take (last * (source.length / (last + 1))) ++
      workerRange source (last + 1) last = source := take_lastRange
  rw [List.map_singleton, List.flatten_singleton]
  exact hlast

/-- Together the workers store to every place once. -/
theorem workerStores_positions (shift : UInt64) (source : List Entry) {workerCount : Nat}
    (hcount : 0 < workerCount) :
    ((((List.range workerCount).map (workerStores shift source workerCount)).flatten).map
      Prod.fst).Perm (List.range source.length) := by
  -- every place is stored to, and there are no more stores than places
  have hsubset : List.range source.length ⊆ (((List.range workerCount).map
      (workerStores shift source workerCount)).flatten).map Prod.fst := by
    intro i hi
    rw [List.mem_range, ← length_bucketSort (digitOf_lt shift)] at hi
    obtain ⟨front, e, back, hsource, hslot⟩ := exists_slotOf_eq hi
    refine List.mem_map.mpr ⟨(i, e), (mem_workerStores hcount _).mpr ⟨front, e, back, hsource, ?_⟩,
      rfl⟩
    rw [hslot]
  have hlength : ((((List.range workerCount).map
      (workerStores shift source workerCount)).flatten).map Prod.fst).length =
        (List.range source.length).length := by
    have hflatten := congrArg List.length (flatten_workerRange source hcount)
    rw [List.length_flatten, List.map_map] at hflatten
    rw [List.length_map, List.length_flatten, List.map_map, List.length_range]
    simp only [Function.comp_def, workerStores, length_scatterStores] at hflatten ⊢
    exact hflatten
  exact ((List.subperm_of_subset List.nodup_range hsubset).perm_of_length_le hlength.le).symm

/-- In whatever order the stores of the workers reach memory, they leave the serial pass. -/
theorem applyStores_workers (shift : UInt64) {source destination : List Entry} {workerCount : Nat}
    (hcount : 0 < workerCount) (hlen : destination.length = source.length)
    {stores : List ScatterWrite}
    (horder : stores.Perm ((List.range workerCount).map
      (workerStores shift source workerCount)).flatten) :
    applyStores destination stores = radixPass shift source destination := by
  rw [radixPass_eq hlen]
  refine applyStores_slots hlen fun store => ?_
  rw [horder.mem_iff]
  exact mem_workerStores hcount store

/-- The stable sort by hash: the same entries, in the order of their hashes, and those of one
hash in the order they had; there is only one such list. -/
structure IsHashSort (entries sorted : List Entry) : Prop where
  perm : sorted.Perm entries
  ordered : sorted.Pairwise fun a b => a.keyHash64 ≤ b.keyHash64
  stable : ∀ hash, sorted.filter (fun e => e.keyHash64 = hash) =
    entries.filter fun e => e.keyHash64 = hash
  unique : ∀ other, other.Pairwise (fun a b => a.keyHash64 ≤ b.keyHash64) →
    (∀ hash, other.filter (fun e => e.keyHash64 = hash) =
      entries.filter fun e => e.keyHash64 = hash) → other = sorted

theorem isHashSort_stableSort (entries : List Entry) :
    IsHashSort entries (stableSort Entry.hash entries) := by
  have hspec := isStableSort_stableSort Entry.hash entries
  have hsame : ∀ (e : Entry) (hash : UInt64), e.keyHash64 = hash ↔ e.hash = hash.toNat :=
    fun e hash => UInt64.toNat_inj.symm
  constructor
  · exact stableSort_perm Entry.hash entries
  · exact hspec.sorted.imp fun hle => UInt64.le_iff_toNat_le.mpr hle
  · intro hash
    simp only [hsame]
    exact hspec.stable hash.toNat
  · intro other hordered hstable
    refine IsStableSort.unique ⟨hordered.imp fun hle => UInt64.le_iff_toNat_le.mp hle, ?_⟩ hspec
    intro k
    by_cases hk : k < 2 ^ 64
    · have hfilter := hstable (UInt64.ofNat k)
      simp only [hsame, UInt64.toNat_ofNat', Nat.mod_eq_of_lt hk] at hfilter
      exact hfilter
    · -- no hash is that great
      have hnone : ∀ l : List Entry, l.filter (fun e => e.hash = k) = [] := fun l =>
        List.filter_eq_nil_iff.mpr fun e _ heq =>
          hk (of_decide_eq_true heq ▸ e.keyHash64.toNat_lt)
      exact (hnone other).trans (hnone entries).symm

end Hrbl
