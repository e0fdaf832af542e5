import Hrbl.Lib.Truncation

/-!
# What computations add

Of a computation that writes: all that it adds to what has been written is of one kind, whether it
returns or stops, and what it returns has a property.
-/

namespace Lib

variable {ε σ α β γ : Type}

/-- From every state the computation adds such elements only, and returns such a value. -/
def Adds (out : σ → List γ) (P : γ → Prop) (Q : α → Prop) (m : EStateM ε σ α) : Prop :=
  ∀ s, (∃ added, out (endState (m s)) = out s ++ added ∧ ∀ c ∈ added, P c) ∧
    ∀ a s', m s = .ok a s' → Q a

namespace Adds

variable {out : σ → List γ} {P : γ → Prop} {Q : α → Prop}

/-- A computation that writes nothing. -/
theorem quiet {m : EStateM ε σ α} (h : ∀ s, out (endState (m s)) = out s)
    (hreturns : ∀ s a s', m s = .ok a s' → Q a) : Adds out P Q m := by
  intro s
  refine ⟨⟨[], ?_, ?_⟩, hreturns s⟩
  · rw [h s, List.append_nil]
  · intro c hc
    exact absurd hc List.not_mem_nil

theorem pure {a : α} (h : Q a) : Adds out P Q (pure a : EStateM ε σ α) := by
  apply quiet
  · intro s
    rfl
  · intro s a' s' hrun
    cases hrun
    exact h

theorem throw (e : ε) : Adds out P Q (throw e : EStateM ε σ α) := by
  apply quiet
  · intro s
    rfl
  · intro s a s' hrun
    cases hrun

/-- A sequence adds what its parts add. -/
theorem bind {R : β → Prop} {m : EStateM ε σ α} {f : α → EStateM ε σ β} (hm : Adds out P Q m)
    (hf : ∀ a, Q a → Adds out P R (f a)) : Adds out P R (m >>= f) := by
  intro s
  have hbind : (m >>= f) s = EStateM.bind m f s := rfl
  rw [hbind, EStateM.bind]
  rcases hm s with ⟨⟨added, hout, hadded⟩, hreturns⟩
  cases hrun : m s with
  | error e s₁ =>
    rw [hrun] at hout
    refine ⟨⟨added, hout, hadded⟩, ?_⟩
    intro b s' hend
    cases hend
  | ok a s₁ =>
    rw [hrun] at hout
    rcases hf a (hreturns a s₁ hrun) s₁ with ⟨⟨added', hout', hadded'⟩, hreturns'⟩
    refine ⟨⟨added ++ added', ?_, ?_⟩, hreturns'⟩
    · have hfirst : out s₁ = out s ++ added := hout
      rw [← List.append_assoc, ← hfirst]
      exact hout'
    · intro c hc
      rcases List.mem_append.mp hc with hc | hc
      · exact hadded c hc
      · exact hadded' c hc

theorem ite {c : Prop} [Decidable c] {m m' : EStateM ε σ α} (h : c → Adds out P Q m)
    (h' : ¬c → Adds out P Q m') : Adds out P Q (if c then m else m') := by
  split
  · exact h ‹_›
  · exact h' ‹_›

end Adds

end Lib
