import Hrbl.Lib.Ambient

/-!
# Computations with an output

A computation over a state with an output that only grows: where it starts from a state
that is ready, it returns, leaves a ready state, and has put something behind the output.
`Outputs` relates its answer and what it has put there, and sequences of such computations
are built up by its rules. `OutputsUnless` is for computations that may also stop with a failure,
and `Keeps` is for what holds all along, whether a computation returns or stops.
-/

namespace Lib

variable {ε σ α β γ : Type} {ready : σ → Prop} {output : σ → List γ}

/-- From every ready state the computation returns, and its answer and what it has put behind
the output are in this relation. -/
def Outputs (ready : σ → Prop) (output : σ → List γ) (m : EStateM ε σ α)
    (Q : α → List γ → Prop) : Prop :=
  ∀ s, ready s → ∃ a text s', m s = .ok a s' ∧ ready s' ∧ output s' = output s ++ text ∧ Q a text

namespace Outputs

theorem pure {a : α} {Q : α → List γ → Prop} (h : Q a []) :
    Outputs ready output (pure a : EStateM ε σ α) Q :=
  fun s hs => ⟨a, [], s, rfl, hs, (List.append_nil _).symm, h⟩

theorem mono {m : EStateM ε σ α} {Q Q' : α → List γ → Prop} (hm : Outputs ready output m Q)
    (h : ∀ a text, Q a text → Q' a text) : Outputs ready output m Q' := by
  intro s hs
  obtain ⟨a, text, s', hrun, hready, houtput, hQ⟩ := hm s hs
  exact ⟨a, text, s', hrun, hready, houtput, h a text hQ⟩

/-- The output of a sequence is that of its parts, one behind the other. -/
theorem bind {m : EStateM ε σ α} {f : α → EStateM ε σ β} {Q : α → List γ → Prop}
    {R : β → List γ → Prop} (hm : Outputs ready output m Q)
    (hf : ∀ a text, Q a text → Outputs ready output (f a) fun b rest => R b (text ++ rest)) :
    Outputs ready output (m >>= f) R := by
  intro s hs
  obtain ⟨a, text, s₁, hrun, hready, houtput, hQ⟩ := hm s hs
  obtain ⟨b, rest, s₂, hrun', hready', houtput', hR⟩ := hf a text hQ s₁ hready
  refine ⟨b, text ++ rest, s₂, ?_, hready', ?_, hR⟩
  · change EStateM.bind m f s = _
    rw [EStateM.bind, hrun]
    exact hrun'
  · rw [houtput', houtput, List.append_assoc]

theorem ite {c : Prop} [Decidable c] {m m' : EStateM ε σ α} {Q : α → List γ → Prop}
    (hm : c → Outputs ready output m Q) (hm' : ¬c → Outputs ready output m' Q) :
    Outputs ready output (if c then m else m') Q := by
  split
  · exact hm ‹_›
  · exact hm' ‹_›

end Outputs

variable {stop : ε} {failed : σ → Prop}

/-- The same of a computation that may stop: where it does, this is the case, and the state it
leaves has failed. -/
def OutputsUnless (ready : σ → Prop) (output : σ → List γ) (stop : ε) (failed : σ → Prop)
    (bad : Prop) (m : EStateM ε σ α) (Q : α → List γ → Prop) : Prop :=
  ∀ s, ready s →
    (∃ a text s', m s = .ok a s' ∧ ready s' ∧ output s' = output s ++ text ∧ Q a text) ∨
    bad ∧ ∃ s', m s = .error stop s' ∧ failed s'

theorem Outputs.unless {m : EStateM ε σ α} {Q : α → List γ → Prop} (hm : Outputs ready output m Q)
    (bad : Prop) : OutputsUnless ready output stop failed bad m Q :=
  fun s hs => .inl (hm s hs)

namespace OutputsUnless

theorem pure {a : α} {Q : α → List γ → Prop} {bad : Prop} (h : Q a []) :
    OutputsUnless ready output stop failed bad (pure a : EStateM ε σ α) Q :=
  (Outputs.pure h).unless bad

theorem mono {m : EStateM ε σ α} {Q Q' : α → List γ → Prop} {bad bad' : Prop}
    (hm : OutputsUnless ready output stop failed bad m Q) (hbad : bad → bad')
    (h : ∀ a text, Q a text → Q' a text) :
    OutputsUnless ready output stop failed bad' m Q' := by
  intro s hs
  rcases hm s hs with ⟨a, text, s', hrun, hready, houtput, hQ⟩ | ⟨hstopped, hrun⟩
  · exact .inl ⟨a, text, s', hrun, hready, houtput, h a text hQ⟩
  · exact .inr ⟨hbad hstopped, hrun⟩

/-- A sequence stops where one of its parts does. -/
theorem bind {m : EStateM ε σ α} {f : α → EStateM ε σ β} {Q : α → List γ → Prop}
    {R : β → List γ → Prop} {bad : Prop} (hm : OutputsUnless ready output stop failed bad m Q)
    (hf : ∀ a text, Q a text → OutputsUnless ready output stop failed bad (f a) fun b rest =>
      R b (text ++ rest)) : OutputsUnless ready output stop failed bad (m >>= f) R := by
  intro s hs
  have hbind : (m >>= f) s = EStateM.bind m f s := rfl
  rw [hbind, EStateM.bind]
  rcases hm s hs with ⟨a, text, s₁, hrun, hready, houtput, hQ⟩ | ⟨hstopped, s₁, hrun, hfailed⟩
  · rw [hrun]
    rcases hf a text hQ s₁ hready with ⟨b, rest, s₂, hrun', hready', houtput', hR⟩ | hstopped
    · refine .inl ⟨b, text ++ rest, s₂, hrun', hready', ?_, hR⟩
      rw [houtput', houtput, List.append_assoc]
    · exact .inr hstopped
  · rw [hrun]
    exact .inr ⟨hstopped, s₁, rfl, hfailed⟩

theorem ite {c : Prop} [Decidable c] {m m' : EStateM ε σ α} {Q : α → List γ → Prop} {bad : Prop}
    (hm : c → OutputsUnless ready output stop failed bad m Q)
    (hm' : ¬c → OutputsUnless ready output stop failed bad m' Q) :
    OutputsUnless ready output stop failed bad (if c then m else m') Q := by
  split
  · exact hm ‹_›
  · exact hm' ‹_›

end OutputsUnless

/-- What a computation returns is such, whenever it returns. -/
def Returns (Q : α → Prop) (m : EStateM ε σ α) : Prop := ∀ s a s', m s = .ok a s' → Q a

namespace Returns

variable {Q : α → Prop}

theorem pure {a : α} (h : Q a) : Returns Q (pure a : EStateM ε σ α) := by
  intro s b s' hrun
  cases hrun
  exact h

theorem mono {Q' : α → Prop} {m : EStateM ε σ α} (hm : Returns Q m) (h : ∀ a, Q a → Q' a) :
    Returns Q' m :=
  fun s a s' hrun => h a (hm s a s' hrun)

/-- The second part may use what the first returns with. -/
theorem bind_of {P : β → Prop} {m : EStateM ε σ β} {f : β → EStateM ε σ α} (hm : Returns P m)
    (hf : ∀ b, P b → Returns Q (f b)) : Returns Q (m >>= f) := by
  intro s a s' hrun
  have hbind : (m >>= f) s = EStateM.bind m f s := rfl
  rw [hbind, EStateM.bind] at hrun
  cases hfirst : m s with
  | ok b s₁ =>
    rw [hfirst] at hrun
    exact hf b (hm s b s₁ hfirst) s₁ a s' hrun
  | error e s₁ =>
    rw [hfirst] at hrun
    cases hrun

/-- Two second parts that are the same for what the first returns with. -/
theorem bind_congr {P : β → Prop} {m : EStateM ε σ β} {f f' : β → EStateM ε σ α}
    (hm : Returns P m) (hf : ∀ b, P b → f b = f' b) : m >>= f = m >>= f' := by
  funext s
  have hbind : ∀ f : β → EStateM ε σ α, (m >>= f) s = EStateM.bind m f s := fun _ => rfl
  rw [hbind, hbind, EStateM.bind, EStateM.bind]
  cases hfirst : m s with
  | ok b s₁ =>
    dsimp only
    rw [hf b (hm s b s₁ hfirst)]
  | error e s₁ => rfl

theorem bind {m : EStateM ε σ β} {f : β → EStateM ε σ α} (hf : ∀ b, Returns Q (f b)) :
    Returns Q (m >>= f) := by
  have hfirst : Returns (fun _ => True) m := fun _ _ _ _ => trivial
  exact hfirst.bind_of fun b _ => hf b

theorem ite {c : Prop} [Decidable c] {m m' : EStateM ε σ α} (hm : c → Returns Q m)
    (hm' : ¬c → Returns Q m') : Returns Q (if c then m else m') := by
  split
  · exact hm ‹_›
  · exact hm' ‹_›

theorem throw (e : ε) : Returns Q (throw e : EStateM ε σ α) := by
  intro s a s' hrun
  cases hrun

/-- What fails does not return. -/
theorem of_error {m : EStateM ε σ α} {e : ε} (hm : Yields m (.error e)) : Returns Q m := by
  intro s a s' hrun
  obtain ⟨s₁, herror⟩ := hm s
  cases hrun.symm.trans herror

theorem of_yields {m : EStateM ε σ α} {a : α} (hm : Yields m (.ok a)) (h : Q a) :
    Returns Q m := by
  intro s b s' hrun
  obtain ⟨s₁, hok⟩ := hm s
  cases hrun.symm.trans hok
  exact h

/-- An error may be told in other words. -/
theorem adapt {ε' : Type} {m : EStateM ε σ α} (f : ε → ε') (hm : Returns Q m) :
    Returns Q (EStateM.adaptExcept f m) := by
  intro s a s' hrun
  rw [EStateM.adaptExcept] at hrun
  cases hinner : m s with
  | ok b s₁ =>
    rw [hinner] at hrun
    cases hrun
    exact hm s a s' hinner
  | error e s₁ =>
    rw [hinner] at hrun
    cases hrun

/-- A sequence returns only if its first part does. -/
theorem first {P : Prop} {m : EStateM ε σ β} {f : β → EStateM ε σ α}
    (hm : Returns (fun _ => P) m) : Returns (fun _ => P) (m >>= f) :=
  hm.bind_of fun _ hP _ _ _ _ => hP

/-- After what is known to return, the rest. -/
theorem after {m : EStateM ε σ β} {f : β → EStateM ε σ α} {b : β} (hm : Yields m (.ok b))
    (hf : Returns Q (f b)) : Returns Q (m >>= f) := by
  intro s a s' hrun
  have hbind : (m >>= f) s = EStateM.bind m f s := rfl
  obtain ⟨s₁, hfirst⟩ := hm s
  rw [hbind, EStateM.bind, hfirst] at hrun
  exact hf s₁ a s' hrun

end Returns

variable {I : σ → Prop} {E : ε → σ → Prop}

/-- From a state with the invariant the computation returns with the invariant, or stops so. -/
def Keeps (I : σ → Prop) (E : ε → σ → Prop) (m : EStateM ε σ α) : Prop :=
  ∀ s, I s → (∀ a s', m s = .ok a s' → I s') ∧ ∀ e s', m s = .error e s' → E e s'

namespace Keeps

theorem pure (a : α) : Keeps I E (pure a : EStateM ε σ α) := by
  intro s hs
  refine ⟨fun b s' h => ?_, fun e s' h => ?_⟩
  · cases h
    exact hs
  · cases h

theorem get : Keeps I E (get : EStateM ε σ σ) := by
  intro s hs
  refine ⟨fun b s' h => ?_, fun e s' h => ?_⟩
  · cases h
    exact hs
  · cases h

theorem throw {e : ε} (he : ∀ s, I s → E e s) : Keeps I E (throw e : EStateM ε σ α) := by
  intro s hs
  refine ⟨fun b s' h => ?_, fun e' s' h => ?_⟩
  · cases h
  · cases h
    exact he s hs

/-- A sequence keeps the invariant when its second part does for what the first may return. -/
theorem bind_returns {Q : α → Prop} {m : EStateM ε σ α} {f : α → EStateM ε σ β}
    (hm : Keeps I E m) (hreturns : Returns Q m) (hf : ∀ a, Q a → Keeps I E (f a)) :
    Keeps I E (m >>= f) := by
  intro s hs
  have hbind : (m >>= f) s = EStateM.bind m f s := rfl
  rw [hbind, EStateM.bind]
  cases hrun : m s with
  | ok a s₁ => exact hf a (hreturns s a s₁ hrun) s₁ ((hm s hs).1 a s₁ hrun)
  | error e s₁ =>
    refine ⟨fun b s' h => ?_, fun e' s' h => ?_⟩
    · cases h
    · cases h
      exact (hm s hs).2 e s₁ hrun

theorem bind {m : EStateM ε σ α} {f : α → EStateM ε σ β} (hm : Keeps I E m)
    (hf : ∀ a, Keeps I E (f a)) : Keeps I E (m >>= f) := by
  have hreturns : Returns (fun _ => True) m := fun _ _ _ _ => trivial
  exact hm.bind_returns hreturns fun a _ => hf a

theorem ite {c : Prop} [Decidable c] {m m' : EStateM ε σ α} (hm : c → Keeps I E m)
    (hm' : ¬c → Keeps I E m') : Keeps I E (if c then m else m') := by
  split
  · exact hm ‹_›
  · exact hm' ‹_›

end Keeps

end Lib
