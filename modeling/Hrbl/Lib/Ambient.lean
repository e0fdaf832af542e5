import Mathlib

/-!
# Computations with an ambient state

A computation over a state that it only passes through, such as counters of calls,
answers the same from every state. `Yields` says so and says what the answer is, and
sequences of such computations are evaluated by its rules.
-/

namespace Lib

variable {ε σ α β : Type}

/-- From every state, the computation ends with this answer. -/
def Yields (m : EStateM ε σ α) (answer : Except ε α) : Prop :=
  ∀ s, ∃ s', m s = match answer with
    | .ok a => .ok a s'
    | .error e => .error e s'

theorem yields_pure (a : α) : Yields (pure a : EStateM ε σ α) (.ok a) := fun s => ⟨s, rfl⟩

theorem yields_throw (e : ε) : Yields (throw e : EStateM ε σ α) (.error e) := fun s => ⟨s, rfl⟩

/-- A sequence whose first part returns. -/
theorem Yields.bind {m : EStateM ε σ α} {f : α → EStateM ε σ β} {a : α}
    {answer : Except ε β} (hm : Yields m (.ok a)) (hf : Yields (f a) answer) :
    Yields (m >>= f) answer := by
  intro s
  obtain ⟨s₁, hs₁⟩ := hm s
  obtain ⟨s₂, hs₂⟩ := hf s₁
  refine ⟨s₂, ?_⟩
  change EStateM.bind m f s = _
  rw [EStateM.bind, hs₁]
  exact hs₂

/-- A sequence whose first part fails. -/
theorem Yields.bind_error {m : EStateM ε σ α} {f : α → EStateM ε σ β} {e : ε}
    (hm : Yields m (.error e)) : Yields (m >>= f) (.error e) := by
  intro s
  obtain ⟨s₁, hs₁⟩ := hm s
  refine ⟨s₁, ?_⟩
  change EStateM.bind m f s = _
  rw [EStateM.bind, hs₁]

/-- A computation that reads the state, when its answer is the same for all of them. -/
theorem yields_get_bind {f : σ → EStateM ε σ β} {answer : Except ε β}
    (h : ∀ s, Yields (f s) answer) : Yields (get >>= f) answer := fun s => h s s

/-- An error may be told in other words. -/
theorem Yields.adapt {ε' : Type} {m : EStateM ε σ α} {answer : Except ε α} (f : ε → ε')
    (h : Yields m answer) : Yields (EStateM.adaptExcept f m) (answer.mapError f) := by
  intro s
  obtain ⟨s', hs'⟩ := h s
  refine ⟨s', ?_⟩
  rw [EStateM.adaptExcept, hs']
  cases answer <;> rfl

/-- There is one answer. -/
theorem Yields.unique [Inhabited σ] {m : EStateM ε σ α} {answer answer' : Except ε α}
    (h : Yields m answer) (h' : Yields m answer') : answer = answer' := by
  obtain ⟨s, hs⟩ := h default
  obtain ⟨s', hs'⟩ := h' default
  rw [hs] at hs'
  cases answer <;> cases answer' <;> cases hs' <;> rfl

/-! ## Two computations -/

variable {σ' α' β' : Type} {R : α → α' → Prop} {S : β → β' → Prop}

/-- Both computations return, with related answers, or both fail with the same error. -/
def Lockstep (R : α → α' → Prop) (m : EStateM ε σ α) (m' : EStateM ε σ' α') : Prop :=
  (∃ a a', Yields m (.ok a) ∧ Yields m' (.ok a') ∧ R a a') ∨
  ∃ e, Yields m (.error e) ∧ Yields m' (.error e)

namespace Lockstep

theorem of_yields {m : EStateM ε σ α} {m' : EStateM ε σ' α'} {a : α} {a' : α'}
    (hm : Yields m (.ok a)) (hm' : Yields m' (.ok a')) (h : R a a') : Lockstep R m m' :=
  .inl ⟨a, a', hm, hm', h⟩

theorem of_errors {m : EStateM ε σ α} {m' : EStateM ε σ' α'} {e : ε}
    (hm : Yields m (.error e)) (hm' : Yields m' (.error e)) : Lockstep R m m' :=
  .inr ⟨e, hm, hm'⟩

theorem pure {a : α} {a' : α'} (h : R a a') :
    Lockstep R (pure a : EStateM ε σ α) (pure a' : EStateM ε σ' α') :=
  of_yields (yields_pure a) (yields_pure a') h

theorem throw (e : ε) :
    Lockstep R (throw e : EStateM ε σ α) (throw e : EStateM ε σ' α') :=
  of_errors (yields_throw e) (yields_throw e)

/-- Sequences go together when their parts do. -/
theorem bind {m : EStateM ε σ α} {m' : EStateM ε σ' α'} {f : α → EStateM ε σ β}
    {f' : α' → EStateM ε σ' β'} (hm : Lockstep R m m')
    (hf : ∀ a a', R a a' → Lockstep S (f a) (f' a')) : Lockstep S (m >>= f) (m' >>= f') := by
  rcases hm with ⟨a, a', hm, hm', h⟩ | ⟨e, hm, hm'⟩
  · rcases hf a a' h with ⟨b, b', hb, hb', h⟩ | ⟨e, he, he'⟩
    · exact of_yields (hm.bind hb) (hm'.bind hb') h
    · exact of_errors (hm.bind he) (hm'.bind he')
  · exact of_errors hm.bind_error hm'.bind_error

theorem mono {m : EStateM ε σ α} {m' : EStateM ε σ' α'} {R' : α → α' → Prop}
    (h : Lockstep R m m') (hR : ∀ a a', R a a' → R' a a') : Lockstep R' m m' := by
  rcases h with ⟨a, a', hm, hm', h⟩ | herror
  · exact of_yields hm hm' (hR a a' h)
  · exact .inr herror

end Lockstep

/-! ## What a computation may answer -/

/-- A computation that returns does so with `P`, and one that fails with `Q`. -/
def Ensures (m : EStateM ε σ α) (P : α → Prop) (Q : ε → Prop) : Prop :=
  ∀ s, match m s with
    | .ok a _ => P a
    | .error e _ => Q e

namespace Ensures

variable {P : α → Prop} {P' : β → Prop} {Q : ε → Prop}

theorem pure {a : α} (h : P a) : Ensures (pure a : EStateM ε σ α) P Q := fun _ => h

theorem throw {e : ε} (h : Q e) : Ensures (throw e : EStateM ε σ α) P Q := fun _ => h

theorem bind {m : EStateM ε σ α} {f : α → EStateM ε σ β} (hm : Ensures m P Q)
    (hf : ∀ a, P a → Ensures (f a) P' Q) : Ensures (m >>= f) P' Q := by
  intro s
  have hs := hm s
  change match EStateM.bind m f s with | .ok b _ => P' b | .error e _ => Q e
  rw [EStateM.bind]
  cases hms : m s with
  | ok a s' =>
    rw [hms] at hs
    exact hf a hs s'
  | error e s' =>
    rw [hms] at hs
    exact hs

/-- An error may be told in other words. -/
theorem adapt {ε' : Type} {m : EStateM ε σ α} {f : ε → ε'} {Q' : ε' → Prop}
    (hm : ∀ e, Q' (f e)) : Ensures (EStateM.adaptExcept f m) (fun _ => True) Q' := by
  intro s
  rw [EStateM.adaptExcept]
  cases m s with
  | ok a s' => trivial
  | error e s' => exact hm e

end Ensures

/-! ## Refusals -/

/-- From every state the computation is refused something, or it answers as the other one does
from all of them. -/
def AnswersAs (refused : ε → Prop) (m : EStateM ε σ α) (m' : EStateM ε σ' α) : Prop :=
  ∀ s, (∃ e s', m s = .error e s' ∧ refused e) ∨
    ∃ answer, Yields m' answer ∧ ∃ s', m s = match answer with
      | .ok a => .ok a s'
      | .error e => .error e s'

namespace AnswersAs

variable {refused : ε → Prop}

theorem of_yields {m : EStateM ε σ α} {m' : EStateM ε σ' α} {answer : Except ε α}
    (hm : Yields m answer) (hm' : Yields m' answer) : AnswersAs refused m m' := by
  intro s
  obtain ⟨s', hs'⟩ := hm s
  exact .inr ⟨answer, hm', s', hs'⟩

theorem pure (a : α) :
    AnswersAs refused (pure a : EStateM ε σ α) (pure a : EStateM ε σ' α) :=
  of_yields (yields_pure a) (yields_pure a)

theorem throw (e : ε) :
    AnswersAs refused (throw e : EStateM ε σ α) (throw e : EStateM ε σ' α) :=
  of_yields (yields_throw e) (yields_throw e)

theorem bind {m : EStateM ε σ α} {m' : EStateM ε σ' α} {f : α → EStateM ε σ β}
    {f' : α → EStateM ε σ' β} (hm : AnswersAs refused m m')
    (hf : ∀ a, AnswersAs refused (f a) (f' a)) : AnswersAs refused (m >>= f) (m' >>= f') := by
  intro s
  have hbind : (m >>= f) s = EStateM.bind m f s := rfl
  rw [hbind, EStateM.bind]
  rcases hm s with ⟨e, s', hs', he⟩ | ⟨answer, hyields, s', hs'⟩
  · exact .inl ⟨e, s', by rw [hs'], he⟩
  · cases answer with
    | error e => exact .inr ⟨.error e, hyields.bind_error, s', by rw [hs']⟩
    | ok a =>
      rcases hf a s' with ⟨e, s'', hs'', he⟩ | ⟨answer', hyields', s'', hs''⟩
      · exact .inl ⟨e, s'', by rw [hs']; exact hs'', he⟩
      · exact .inr ⟨answer', hyields.bind hyields', s'', by rw [hs']; exact hs''⟩

theorem ite {c : Prop} [Decidable c] {m n : EStateM ε σ α} {m' n' : EStateM ε σ' α}
    (hm : AnswersAs refused m m') (hn : AnswersAs refused n n') :
    AnswersAs refused (if c then m else n) (if c then m' else n') := by
  split
  · exact hm
  · exact hn

/-- What the other computation answers, this one answers when it is not refused. -/
theorem cases [Inhabited σ'] {m : EStateM ε σ α} {m' : EStateM ε σ' α} {answer : Except ε α}
    (h : AnswersAs refused m m') (hm' : Yields m' answer) (s : σ) :
    (∃ e s', m s = .error e s' ∧ refused e) ∨
      ∃ s', m s = match answer with
        | .ok a => .ok a s'
        | .error e => .error e s' := by
  rcases h s with herror | ⟨answer', hyields, hs⟩
  · exact .inl herror
  · rw [hyields.unique hm'] at hs
    cases answer with
    | ok a => exact .inr hs
    | error e => exact .inr hs

end AnswersAs

/-! ## Computations within others -/

/-- What the computation returns, the other one returns from the same state. -/
def Within (m m' : EStateM ε σ α) : Prop := ∀ ⦃s a s'⦄, m s = .ok a s' → m' s = .ok a s'

namespace Within

theorem refl (m : EStateM ε σ α) : Within m m := fun _ _ _ h => h

theorem bind {m m' : EStateM ε σ α} {f f' : α → EStateM ε σ β} (hm : Within m m')
    (hf : ∀ a, Within (f a) (f' a)) : Within (m >>= f) (m' >>= f') := by
  intro s b s'' h
  change EStateM.bind m f s = _ at h
  change EStateM.bind m' f' s = _
  rw [EStateM.bind] at h ⊢
  cases hs : m s with
  | error e s' =>
    rw [hs] at h
    cases h
  | ok a s' =>
    rw [hs] at h
    rw [hm hs]
    exact hf a h

theorem ite {c : Prop} [Decidable c] {m m' n n' : EStateM ε σ α} (hm : Within m m')
    (hn : Within n n') : Within (if c then m else n) (if c then m' else n') := by
  split
  · exact hm
  · exact hn

theorem adapt {ε' : Type} {m m' : EStateM ε σ α} (f : ε → ε') (h : Within m m') :
    Within (EStateM.adaptExcept f m) (EStateM.adaptExcept f m') := by
  intro s a s' hs
  rw [EStateM.adaptExcept] at hs ⊢
  cases hms : m s with
  | error e s'' =>
    rw [hms] at hs
    cases hs
  | ok b s'' =>
    rw [hms] at hs
    cases hs
    rw [h hms]

end Within

end Lib
