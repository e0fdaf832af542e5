import Hrbl.Lib.Ambient

/-!
# Computations with a bound

Of two computations, the first approximates the second when it does the same unless it stops for its
bound. A computation whose bound is raised is approximated by itself with the lower one.
-/

namespace Lib

variable {ε σ α β : Type} {stop : ε}

/-- From every state the first computation stops so, or the second does the same. -/
def Approximates (stop : ε) (m m' : EStateM ε σ α) : Prop :=
  ∀ s, (∃ s', m s = .error stop s') ∨ m' s = m s

namespace Approximates

theorem refl (m : EStateM ε σ α) : Approximates stop m m := fun _ => .inr rfl

theorem trans {m m' m'' : EStateM ε σ α} (h : Approximates stop m m')
    (h' : Approximates stop m' m'') : Approximates stop m m'' := by
  intro s
  rcases h s with hstop | heq
  · exact .inl hstop
  · rcases h' s with ⟨s', hstop⟩ | heq'
    · exact .inl ⟨s', heq ▸ hstop⟩
    · exact .inr (heq'.trans heq)

theorem throw (m : EStateM ε σ α) : Approximates stop (throw stop) m := fun s => .inl ⟨s, rfl⟩

/-- A sequence is approximated part by part. -/
theorem bind {m m' : EStateM ε σ α} {f f' : α → EStateM ε σ β} (hm : Approximates stop m m')
    (hf : ∀ a, Approximates stop (f a) (f' a)) : Approximates stop (m >>= f) (m' >>= f') := by
  intro s
  have hbind : (m >>= f) s = EStateM.bind m f s := rfl
  have hbind' : (m' >>= f') s = EStateM.bind m' f' s := rfl
  rw [hbind, hbind', EStateM.bind, EStateM.bind]
  rcases hm s with ⟨s₁, hstop⟩ | heq
  · rw [hstop]
    exact .inl ⟨s₁, rfl⟩
  · rw [heq]
    cases m s with
    | ok a s₁ => exact hf a s₁
    | error e s₁ => exact .inr rfl

theorem ite {c : Prop} [Decidable c] {m₁ m₂ m₁' m₂' : EStateM ε σ α}
    (h₁ : Approximates stop m₁ m₁') (h₂ : Approximates stop m₂ m₂') :
    Approximates stop (if c then m₁ else m₂) (if c then m₁' else m₂') := by
  split
  · exact h₁
  · exact h₂

/-- With bounds that approximate the next one each, a lower one approximates a higher one. -/
theorem of_le {m : Nat → EStateM ε σ α} (h : ∀ n, Approximates stop (m n) (m (n + 1)))
    {n n' : Nat} (hle : n ≤ n') : Approximates stop (m n) (m n') := by
  induction hle with
  | refl => exact .refl _
  | step _ ih => exact ih.trans (h _)

end Approximates

end Lib
