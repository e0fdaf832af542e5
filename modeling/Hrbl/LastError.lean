import Hrbl.Replay

/-!
# What `last_error` tells

A finalize call that has a buffer leaves `last_error` alone, and every other one sets it. So
what is there from before has to be right already where a call may get a buffer, which is a
matter of the document, of the memory that the call is given and of the file that it stores.
-/

namespace Hrbl

open Lib

/-- After a finalize call, `last_error` is `OK` exactly when the call has returned `true`. -/
def Truthful (c : Call) (a : Answer) : Prop :=
  c.isFinalize = true → (a.lastError = .ok ↔ a.success = true)

/-- The pool of strings gets the memory it starts with. -/
def Writer.PoolGranted (env : Env) (w : Writer) : Prop :=
  env.poolAllocates w.calls.pool = true ∧ env.poolAllocates (w.calls.pool + 1) = true

instance (env : Env) (w : Writer) : Decidable (w.PoolGranted env) :=
  inferInstanceAs (Decidable (_ ∧ _))

instance (file : FileCalls) : Decidable file.Fails := inferInstanceAs (Decidable (_ ∨ _))

/-- A finalize call may get a buffer: there is no error and no open scope, the pool gets its
first memory, and the document has a size that can be encoded. -/
structure Writer.MayReturn (env : Env) (w : Writer) : Prop where
  valid : w.errorFlag = false
  closed : w.currentScope = none
  pool : w.PoolGranted env
  document : ∀ trees document, Stored env w trees document → membersArraysNarrow document →
    document.Encodable env.hash64 w.options.workerCount

/-- Where a finalize call may get a buffer, the last error is `OK` before a call that stores what
it gets, and another code before one that fails to. -/
def Writer.Clear (env : Env) (w : Writer) : Call → Prop
  | .op _ => True
  | .finalizeToBuffer => w.MayReturn env → w.lastError = .ok
  | .finalizeToFile file => w.MayReturn env → (w.lastError = .ok ↔ ¬file.Fails)

/-- Every call of a run is made in such a state. -/
def Writer.Throughout (P : Env → Writer → Call → Prop) : Writer → List (Env × Call) → Prop
  | _, [] => True
  | w, (env, c) :: calls => P env w c ∧
      match w.call env c with
      | none => True
      | some (_, w') => w'.Throughout P calls

instance Writer.decidableThroughout (P : Env → Writer → Call → Prop)
    [∀ env w c, Decidable (P env w c)] : ∀ w calls, Decidable (Writer.Throughout P w calls)
  | _, [] => isTrue trivial
  | w, (env, c) :: calls =>
    have : Decidable (match w.call env c with
        | none => True
        | some (_, w') => w'.Throughout P calls) :=
      match w.call env c with
      | none => isTrue trivial
      | some (_, w') => Writer.decidableThroughout P w' calls
    inferInstanceAs (Decidable (_ ∧ _))

theorem Writer.Throughout.mono {P Q : Env → Writer → Call → Prop}
    (hmono : ∀ env w c, P env w c → Q env w c) {w : Writer} {calls : List (Env × Call)}
    (h : w.Throughout P calls) : w.Throughout Q calls := by
  induction calls generalizing w with
  | nil => trivial
  | cons c calls ih =>
    obtain ⟨env, c⟩ := c
    obtain ⟨hcall, hlater⟩ := h
    refine ⟨hmono env w c hcall, ?_⟩
    revert hlater
    cases w.call env c with
    | none => exact id
    | some next => exact ih

/-! ## One call -/

section

variable {env : Env} {w w' : Writer}

/-- Without its first memory the pool is not made. -/
theorem poolInit_refused (initialCapacity : Nat) {calls : Calls}
    (hrefused : ¬(env.poolAllocates calls.pool = true ∧
      env.poolAllocates (calls.pool + 1) = true)) :
    ∃ calls', poolInit env initialCapacity calls = .error (.error .oom) calls' := by
  have hcapacity : (if initialCapacity < 4096 then 4096 else initialCapacity) ≠ 0 := by
    split <;> omega
  unfold poolInit bufferInit slotsGrow
  rw [if_neg hcapacity]
  by_cases hfirst : env.poolAllocates calls.pool = true
  · have hsecond : env.poolAllocates (calls.pool + 1) = false :=
      Bool.eq_false_iff.mpr fun h => hrefused ⟨hfirst, h⟩
    exact ⟨_, by simp [allocate, bind, EStateM.bind, pure, EStateM.pure, hfirst, hsecond]; rfl⟩
  · exact ⟨_, by simp [allocate, bind, EStateM.bind, hfirst]; rfl⟩

/-- A call that gets a buffer may do so, and leaves the last error alone. -/
theorem finalizeToBuffer_mayReturn {file : Bytes}
    (h : finalizeToBuffer env w = .returned file w') :
    w.MayReturn env ∧ w'.lastError = w.lastError := by
  have hfile := h
  unfold finalizeToBuffer at h
  split at h
  · cases h
  rename_i hflag
  split at h
  · cases h
  rename_i hscope
  split at h
  · rename_i nodes file calls hserialize
    cases h
    refine ⟨⟨Bool.eq_false_iff.mpr hflag, by simpa using hscope, ?_, ?_⟩, rfl⟩
    · -- a call without the first memory stops in `pool_init`
      by_contra hrefused
      obtain ⟨calls', hinit⟩ := poolInit_refused 4096 hrefused
      have hcollect : collectRoots env w w.calls = .error (.error .oom, w.nodes) calls' := by
        unfold collectRoots leaving
        simp only [bind, EStateM.bind, EStateM.adaptExcept, hinit]
      rw [serializeToBuffer] at hserialize
      simp only [bind, EStateM.bind, hcollect] at hserialize
      cases hserialize
    · intro trees document hstored harrays
      exact (finalizeToBuffer_file hstored harrays hfile).1
  · cases h
  · cases h
  · cases h

/-- A call that is refused sets the last error. -/
theorem finalizeToBuffer_sets (h : finalizeToBuffer env w = .refused w') : w'.lastError ≠ .ok := by
  unfold finalizeToBuffer at h
  split at h
  · cases h
    exact nofun
  split at h
  · cases h
    exact nofun
  split at h
  · cases h
  · rename_i code nodes calls hserialize
    cases h
    by_cases hcode : code = .ok <;> simp [hcode]
  · cases h
  · cases h

/-- A finalize call that returns to its caller either has a buffer, and says whether it has
stored it, or it is refused. -/
theorem call_cases {c : Call} {a : Answer} (hc : c.isFinalize = true)
    (h : w.call env c = some (a, w')) :
    (w.MayReturn env ∧ (∃ file v, finalizeToBuffer env w = .returned file v) ∧
      a.lastError = w.lastError ∧
      (a.success = true ↔ ∀ file, c = .finalizeToFile file → ¬file.Fails)) ∨
    (¬(∃ file v, finalizeToBuffer env w = .returned file v) ∧ a.lastError ≠ .ok ∧
      a.success = false) := by
  cases c with
  | op op => cases hc
  | finalizeToBuffer =>
    rw [Writer.call] at h
    cases hfinal : finalizeToBuffer env w with
    | returned buffer v =>
      rw [hfinal] at h
      cases h
      obtain ⟨hmay, hlast⟩ := finalizeToBuffer_mayReturn hfinal
      refine .inl ⟨hmay, ⟨buffer, _, rfl⟩, hlast, iff_of_true rfl ?_⟩
      intro file hother
      cases hother
    | refused v =>
      rw [hfinal] at h
      cases h
      refine .inr ⟨?_, finalizeToBuffer_sets hfinal, rfl⟩
      rintro ⟨file, v', hreturned⟩
      cases hreturned
    | _ =>
      rw [hfinal] at h
      cases h
  | finalizeToFile file =>
    rw [Writer.call, finalizeToFile] at h
    cases hfinal : finalizeToBuffer env w with
    | returned buffer v =>
      rw [hfinal] at h
      -- the bytes are there; what is left to go wrong is the file, and it leaves no error code
      simp only [Option.map_map, Option.map_eq_some_iff] at h
      obtain ⟨⟨done, contents⟩, hstore, hanswer⟩ := h
      cases hanswer
      obtain ⟨hmay, hlast⟩ := finalizeToBuffer_mayReturn hfinal
      refine .inl ⟨hmay, ⟨buffer, _, rfl⟩, hlast, ?_⟩
      constructor
      · rintro hdone _ ⟨⟩
        exact (storeFile_iff hstore).mp hdone
      · intro hstored
        exact (storeFile_iff hstore).mpr (hstored file rfl)
    | refused v =>
      rw [hfinal] at h
      cases h
      refine .inr ⟨?_, finalizeToBuffer_sets hfinal, rfl⟩
      rintro ⟨file, v', hreturned⟩
      cases hreturned
    | _ =>
      rw [hfinal] at h
      cases h

/-- What a call that may get a buffer asks of the last error, in one form for both. -/
theorem Writer.clear_iff {c : Call} (hc : c.isFinalize = true) :
    w.Clear env c ↔ (w.MayReturn env →
      (w.lastError = .ok ↔ ∀ file, c = .finalizeToFile file → ¬file.Fails)) := by
  cases c with
  | op op => cases hc
  | finalizeToBuffer => simp [Writer.Clear]
  | finalizeToFile file => simp [Writer.Clear]

/-- The step: in such a state, a call tells the truth. -/
theorem Writer.Clear.truthful {c : Call} {a : Answer} (hclear : w.Clear env c)
    (h : w.call env c = some (a, w')) : Truthful c a := by
  intro hc
  rcases call_cases hc h with ⟨hmay, -, hlast, hsuccess⟩ | ⟨-, hlast, hsuccess⟩
  · rw [hlast, hsuccess]
    exact (Writer.clear_iff hc).mp hclear hmay
  · rw [hsuccess]
    exact iff_of_false hlast Bool.false_ne_true

end

/-! ## Runs -/

/-- In a run whose calls are all made in such a state, `last_error` tells the truth after every
finalize call. -/
theorem Writer.Throughout.truthful {w w' : Writer} {calls : List (Env × Call)}
    {answers : List Answer} (hclear : w.Throughout Writer.Clear calls)
    (h : w.perform calls = some (answers, w')) :
    List.Forall₂ (fun c a => Truthful c.2 a) calls answers := by
  induction calls generalizing w answers with
  | nil =>
    cases h
    exact .nil
  | cons c calls ih =>
    obtain ⟨env, c⟩ := c
    obtain ⟨hcall, hlater⟩ := hclear
    rw [Writer.perform] at h
    cases hanswer : w.call env c with
    | none =>
      rw [hanswer] at h
      cases h
    | some next =>
      obtain ⟨a, w₁⟩ := next
      rw [hanswer] at h hlater
      obtain ⟨⟨answers', w₂⟩, hrun, heq⟩ := Option.map_eq_some_iff.mp h
      cases heq
      exact .cons (hcall.truthful hanswer) (ih hlater hrun)

/-- A finalize call is decided by what it is given: it is refused no memory and no thread or
does not get the first memory, and the document is small and can be sorted. -/
def Writer.Decided (env : Env) (w : Writer) (c : Call) : Prop :=
  c.isFinalize = true → (w.PoolGranted env → env.Succeeds) ∧
    ∀ trees document, Stored env w trees document →
      documentSize env.hash64 document < 2 ^ 32 ∧ document.Sortable w.options.workerCount

/-- A writer holds what some builder has built, until a construction call is rejected. -/
def Writer.Stands (hash64 : Bytes → UInt64) (w : Writer) : Prop :=
  w.errorFlag = true ∨
    ∃ b, Tracks (.succeeding hash64) w b ∧ w.arenaUsed < 2 ^ 63

/-- The step: it goes on holding it, whatever the call and its environment. -/
theorem Writer.Stands.call {hash64 : Bytes → UInt64} {env : Env} {w w' : Writer} {c : Call}
    {a : Answer} (hstands : w.Stands hash64) (hhash : env.hash64 = hash64)
    (h : w.call env c = some (a, w')) : w'.Stands hash64 := by
  rcases hstands with hflag | ⟨b, htracks, hroom⟩
  · obtain ⟨a', w₁, hcall, -, hw₁⟩ := call_flagged env hflag c
    cases h.symm.trans hcall
    left
    rw [hw₁]
    exact hflag
  cases hc : c.isFinalize with
  | true =>
    right
    have hfinal := call_refinalized hc h
    have hused : w'.arenaUsed = w.arenaUsed := by rw [hfinal.eq]
    exact ⟨b, htracks.refinalized hfinal, hused ▸ hroom⟩
  | false =>
    cases c with
    | finalizeToBuffer => cases hc
    | finalizeToFile file => cases hc
    | op op =>
      obtain ⟨⟨success, v⟩, hstep, heq⟩ := Option.map_eq_some_iff.mp h
      cases heq
      have hsame : env.hash64 = (Env.succeeding hash64).hash64 := hhash
      -- an operation is followed by the builder, or raises the flag for good
      rcases step_follows (htracks.of_hash hsame) hroom op with
        ⟨w₁, b₁, hstep', -, htracks₁, -, hroom₁⟩ | ⟨w₁, hstep', hflag, -⟩
      · cases hstep.symm.trans hstep'
        exact .inr ⟨b₁, htracks₁.of_hash hsame.symm, hroom₁⟩
      · cases hstep.symm.trans hstep'
        exact .inl hflag

/-- Where a call is decided, it gets the buffer that it may get. -/
theorem Writer.MayReturn.returned {hash64 : Bytes → UInt64} {env : Env} {w : Writer} {c : Call}
    (hmay : w.MayReturn env) (hstands : w.Stands hash64) (hhash : env.hash64 = hash64)
    (hdecided : w.Decided env c) (hc : c.isFinalize = true) :
    ∃ file v, finalizeToBuffer env w = .returned file v := by
  obtain ⟨hmemory, hdocument⟩ := hdecided hc
  rcases hstands with hflag | ⟨b, htracks, -⟩
  · rw [hmay.valid] at hflag
    cases hflag
  have hsame : env.hash64 = (Env.succeeding hash64).hash64 := hhash
  obtain ⟨-, trees, hstored⟩ := (htracks.of_hash hsame).stored hmay.closed
  obtain ⟨hsize, hsortable⟩ := hdocument trees _ hstored
  obtain ⟨v, hreturned⟩ := finalizeToBuffer_returned (hmemory hmay.pool) hstored
    (encodable_of_size hsize hsortable)
  exact ⟨_, v, hreturned⟩

/-- In a run of decided calls, `last_error` tells the truth after every finalize call only when
every call is made in such a state. -/
theorem Writer.Throughout.clear {hash64 : Bytes → UInt64} {w w' : Writer}
    {calls : List (Env × Call)} {answers : List Answer} (hstands : w.Stands hash64)
    (hhash : ∀ c ∈ calls, c.1.hash64 = hash64) (hdecided : w.Throughout Writer.Decided calls)
    (h : w.perform calls = some (answers, w'))
    (htruthful : List.Forall₂ (fun c a => Truthful c.2 a) calls answers) :
    w.Throughout Writer.Clear calls := by
  induction calls generalizing w answers with
  | nil => trivial
  | cons c calls ih =>
    obtain ⟨env, c⟩ := c
    obtain ⟨hdecides, hlater⟩ := hdecided
    rw [Writer.perform] at h
    cases hanswer : w.call env c with
    | none =>
      rw [hanswer] at h
      cases h
    | some next =>
      obtain ⟨a, w₁⟩ := next
      rw [hanswer] at h hlater
      obtain ⟨⟨answers', w₂⟩, hrun, heq⟩ := Option.map_eq_some_iff.mp h
      cases heq
      obtain ⟨hcall, htruthful⟩ := List.forall₂_cons.mp htruthful
      have hhash₁ : env.hash64 = hash64 := hhash _ List.mem_cons_self
      constructor
      · cases hc : c.isFinalize with
        | false =>
          cases c with
          | op op => trivial
          | finalizeToBuffer => cases hc
          | finalizeToFile file => cases hc
        | true =>
          rw [Writer.clear_iff hc]
          -- a call that may return does so, and then its answer has told the truth
          intro hmay
          have hreturned := hmay.returned hstands hhash₁ hdecides hc
          rcases call_cases hc hanswer with ⟨-, -, hlast, hsuccess⟩ | ⟨hrefused, -, -⟩
          · rw [← hlast, ← hsuccess]
            exact hcall hc
          · exact absurd hreturned hrefused
      · simp only [hanswer]
        exact ih (hstands.call hhash₁ hanswer) (fun c hc => hhash c (List.mem_cons_of_mem _ hc))
          hlater hrun htruthful

/-- In every run of calls on a new writer in which each finalize call that may get a buffer finds
the last error right, `last_error` tells the truth after every finalize call. Where each
finalize call is decided, this is so only in these runs. -/
theorem lastError_truthful_iff {options : Option WriterOptions} {w : Writer}
    {calls : List (Env × Call)} {answers : List Answer}
    (hrun : (Writer.create options).perform calls = some (answers, w)) :
    ((Writer.create options).Throughout Writer.Clear calls →
      List.Forall₂ (fun c a => Truthful c.2 a) calls answers) ∧
    ∀ hash64, (∀ c ∈ calls, c.1.hash64 = hash64) →
      (Writer.create options).Throughout Writer.Decided calls →
      (List.Forall₂ (fun c a => Truthful c.2 a) calls answers ↔
        (Writer.create options).Throughout Writer.Clear calls) := by
  refine ⟨fun hclear => hclear.truthful hrun, fun hash64 hhash hdecided => ⟨?_, ?_⟩⟩
  · have hnew : (Writer.create options).Stands hash64 :=
      .inr ⟨_, create_tracks _ options, by simp [Writer.create]⟩
    exact Writer.Throughout.clear hnew hhash hdecided hrun
  · exact fun hclear => hclear.truthful hrun

/-- What can be seen of this before a call: it does not get its first memory or is refused at
once, or it finds the last error right. -/
def Writer.clearNow (env : Env) (w : Writer) : Call → Bool
  | .op _ => true
  | .finalizeToBuffer =>
    w.errorFlag || w.currentScope.isSome || !decide (w.PoolGranted env) ||
      decide (w.lastError = .ok)
  | .finalizeToFile file =>
    w.errorFlag || w.currentScope.isSome || !decide (w.PoolGranted env) ||
      decide (w.lastError = .ok ↔ ¬file.Fails)

theorem Writer.clear_of_clearNow (env : Env) (w : Writer) (c : Call)
    (h : w.clearNow env c = true) : w.Clear env c := by
  cases c with
  | op op => trivial
  | finalizeToBuffer =>
    intro hmay
    unfold Writer.clearNow at h
    rw [hmay.valid, hmay.closed, decide_eq_true hmay.pool] at h
    exact of_decide_eq_true h
  | finalizeToFile file =>
    intro hmay
    unfold Writer.clearNow at h
    rw [hmay.valid, hmay.closed, decide_eq_true hmay.pool] at h
    exact of_decide_eq_true h

/-- A file is returned. Then a call in an open block, one without memory and one whose file
cannot be stored return `false`. -/
def interludes : List (Env × Call) :=
  [(.succeeding fun _ => 0, .op (.setNull (.data [0x61]))),
    (.succeeding fun _ => 0, .finalizeToBuffer),
    (.succeeding fun _ => 0, .op (.beginBlock (.data [0x62]))),
    (.succeeding fun _ => 0, .finalizeToBuffer),
    (.succeeding fun _ => 0, .op .endBlock),
    (.refusing (fun _ => 0) 7, .finalizeToBuffer),
    (.succeeding fun _ => 0, .finalizeToFile ⟨true, [.wrote 9, .failed], true⟩)]

theorem lastError_truthful_iff_interludes :
    ∃ answers w, (Writer.create none).perform interludes = some (answers, w) ∧
      answers.map (fun a => (a.success, a.lastError)) = [(true, .ok), (true, .ok), (true, .ok),
        (false, .unclosedScope), (true, .unclosedScope), (false, .oom), (false, .oom)] ∧
      List.Forall₂ (fun c a => Truthful c.2 a) interludes answers := by
  have hanswers : ((Writer.create none).perform interludes).map (fun r =>
      r.1.map fun a => (a.success, a.lastError)) = some [(true, .ok), (true, .ok), (true, .ok),
        (false, .unclosedScope), (true, .unclosedScope), (false, .oom), (false, .oom)] := by
    decide +kernel
  have hnow : (Writer.create none).Throughout (fun env w c => w.clearNow env c = true)
      interludes := by decide +kernel
  obtain ⟨⟨answers, w⟩, hrun, hseen⟩ := Option.map_eq_some_iff.mp hanswers
  obtain ⟨htruthful, -⟩ := lastError_truthful_iff hrun
  exact ⟨answers, w, hrun, hseen, htruthful (hnow.mono Writer.clear_of_clearNow)⟩

/-- A block is opened, a finalize call refused, the block closed and the file made. -/
def reopened : List (Env × Call) :=
  [.op (.beginBlock (.data [0x62])), .finalizeToBuffer, .op .endBlock, .finalizeToBuffer].map
    fun c => (Env.succeeding fun _ => 0, c)

/-- The last error of the refused finalize call is still there after the other one. -/
theorem lastError_not_truthful : ¬∀ (options : Option WriterOptions) (w : Writer)
    (calls : List (Env × Call)) (answers : List Answer),
      (Writer.create options).perform calls = some (answers, w) →
        List.Forall₂ (fun c a => Truthful c.2 a) calls answers := by
  intro h
  have hrun : ((Writer.create none).perform reopened).map (fun r =>
      r.1.map fun a => (a.success, a.lastError)) = some [(true, .ok), (false, .unclosedScope),
        (true, .unclosedScope), (true, .unclosedScope)] := by decide +kernel
  obtain ⟨⟨answers, w⟩, hrun, hanswers⟩ := Option.map_eq_some_iff.mp hrun
  have htruthful : List.Forall₂ (fun (c : Env × Call) (r : Bool × WriterError) =>
      c.2.isFinalize = true → (r.2 = .ok ↔ r.1 = true)) reopened
        (answers.map fun a => (a.success, a.lastError)) :=
    List.forall₂_map_right_iff.mpr (h none w reopened answers hrun)
  rw [hanswers] at htruthful
  simp [reopened, List.forall₂_cons, Call.isFinalize] at htruthful

end Hrbl
