import Hrbl.Lib.Ambient

/-!
# Computations cut short

Two computations that write: the second cuts the first short when it is the first up to the place
where it stops, and has written nothing there that the first does not write as well.
-/

namespace Lib

variable {ε σ α β γ : Type}

/-- The state that a computation ends in. -/
def endState : EStateM.Result ε σ α → σ
  | .ok _ s => s
  | .error _ s => s

section

variable (out : σ → List γ) (marked : σ → Prop) (stop : ε)

/-- What has been written stays. -/
def Appends (m : EStateM ε σ α) : Prop := ∀ s, out s <+: out (endState (m s))

/-- From every state the second computation does the same, or it stops so, marked, behind a part of
what the first writes. -/
def Truncates (m m' : EStateM ε σ α) : Prop :=
  Appends out m ∧ ∀ s, m' s = m s ∨ ∃ s', m' s = .error stop s' ∧ marked s' ∧ out s <+: out s' ∧
    out s' <+: out (endState (m s))

end

variable {out : σ → List γ} {marked : σ → Prop} {stop : ε}

namespace Appends

/-- What has been written in the first part of a sequence stays in the second. -/
theorem through {f : α → EStateM ε σ β} (hf : ∀ a, Appends out (f a)) (m : EStateM ε σ α)
    (s : σ) : out (endState (m s)) <+: out (endState ((m >>= f) s)) := by
  have hbind : (m >>= f) s = EStateM.bind m f s := rfl
  rw [hbind, EStateM.bind]
  cases m s with
  | ok a s₁ => exact hf a s₁
  | error e s₁ => exact List.prefix_rfl

theorem bind {m : EStateM ε σ α} {f : α → EStateM ε σ β} (hm : Appends out m)
    (hf : ∀ a, Appends out (f a)) : Appends out (m >>= f) :=
  fun s => (hm s).trans (through hf m s)

end Appends

namespace Truncates

theorem refl {m : EStateM ε σ α} (h : Appends out m) : Truncates out marked stop m m :=
  ⟨h, fun _ => .inl rfl⟩

/-- A computation that writes nothing. -/
theorem quiet {m : EStateM ε σ α} (h : ∀ s, out (endState (m s)) = out s) :
    Truncates out marked stop m m := by
  apply refl
  intro s
  rw [h s]

theorem pure (a : α) : Truncates out marked stop (pure a : EStateM ε σ α) (pure a) :=
  quiet fun _ => rfl

theorem throw (e : ε) : Truncates out marked stop (throw e : EStateM ε σ α) (throw e) :=
  quiet fun _ => rfl

/-- A sequence is cut short in its first part or in its second. -/
theorem bind {m m' : EStateM ε σ α} {f f' : α → EStateM ε σ β}
    (hm : Truncates out marked stop m m') (hf : ∀ a, Truncates out marked stop (f a) (f' a)) :
    Truncates out marked stop (m >>= f) (m' >>= f') := by
  have hrest : ∀ a, Appends out (f a) := fun a => (hf a).1
  refine ⟨hm.1.bind hrest, ?_⟩
  intro s
  have hbind : (m >>= f) s = EStateM.bind m f s := rfl
  have hbind' : (m' >>= f') s = EStateM.bind m' f' s := rfl
  have hfirst := hm.1 s
  have hthrough := Appends.through hrest m s
  rcases hm.2 s with heq | ⟨s', hrun', hmark, hbefore, hbehind⟩
  · rw [hbind, hbind', EStateM.bind, EStateM.bind, heq]
    cases hrun : m s with
    | error e s₁ => exact .inl rfl
    | ok a s₁ =>
      rw [hrun] at hfirst
      rcases (hf a).2 s₁ with heq' | ⟨s', hcut, hmark, hbefore, hbehind⟩
      · exact .inl heq'
      · exact .inr ⟨s', hcut, hmark, List.IsPrefix.trans hfirst hbefore, hbehind⟩
  · rw [hbind', EStateM.bind, hrun']
    exact .inr ⟨s', rfl, hmark, hbefore, hbehind.trans hthrough⟩

theorem ite {c : Prop} [Decidable c] {m₁ m₂ m₁' m₂' : EStateM ε σ α}
    (h₁ : Truncates out marked stop m₁ m₁') (h₂ : Truncates out marked stop m₂ m₂') :
    Truncates out marked stop (if c then m₁ else m₂) (if c then m₁' else m₂') := by
  split
  · exact h₁
  · exact h₂

end Truncates

end Lib
