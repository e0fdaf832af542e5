import Mathlib

/-!
# Outcomes of calls that read memory

A call to a C function that returns `bool` and fills out-parameters comes to one
of three things: it returns `true` with its results, it returns `false`, or it
reads outside of the object it was given. `Outcome` keeps the three apart, so
that memory safety is the statement that `fault` does not occur.
-/

namespace Lib

/-- `ok` is `true` with the out-parameters, `no` is `false`, and `fault` is an
access outside of the object. -/
inductive Outcome (α : Type) where
  | ok (value : α)
  | no
  | fault
deriving Repr, DecidableEq

namespace Outcome

variable {α β : Type}

/-- The continuation runs on `ok` only. -/
@[simp] def bind (x : Outcome α) (f : α → Outcome β) : Outcome β :=
  match x with
  | ok a => f a
  | no => no
  | fault => fault

instance : Monad Outcome where
  pure := ok
  bind := bind

@[simp] theorem pure_eq (a : α) : (pure a : Outcome α) = ok a := rfl

@[simp] theorem ok_bind (a : α) (f : α → Outcome β) : ok a >>= f = f a := rfl

@[simp] theorem no_bind (f : α → Outcome β) : (no : Outcome α) >>= f = no := rfl

@[simp] theorem fault_bind (f : α → Outcome β) :
    (fault : Outcome α) >>= f = fault := rfl

/-- A sequence that returns `true` went through its first call. -/
theorem bind_eq_ok {x : Outcome α} {f : α → Outcome β} {b : β} :
    x >>= f = ok b ↔ ∃ a, x = ok a ∧ f a = ok b := by
  cases x <;> simp

/-- A sequence faults in its first call or after it. -/
theorem bind_eq_fault {x : Outcome α} {f : α → Outcome β} :
    x >>= f = fault ↔ x = fault ∨ ∃ a, x = ok a ∧ f a = fault := by
  cases x <;> simp

/-- A sequence of calls that do not return `false` does not. -/
theorem bind_ne_no {x : Outcome α} {f : α → Outcome β} (hx : x ≠ no)
    (hf : ∀ a, x = ok a → f a ≠ no) : x >>= f ≠ no := by
  cases x with
  | ok a => exact hf a rfl
  | no => exact absurd rfl hx
  | fault => simp

/-- The call reads only what it may. -/
def Safe (x : Outcome α) : Prop := x ≠ fault

instance (x : Outcome α) [DecidableEq α] : Decidable (Safe x) :=
  inferInstanceAs (Decidable (x ≠ fault))

@[simp] theorem safe_ok (a : α) : Safe (ok a) := by simp [Safe]

@[simp] theorem safe_no : Safe (no : Outcome α) := by simp [Safe]

@[simp] theorem not_safe_fault : ¬ Safe (fault : Outcome α) := by simp [Safe]

/-- Safety of a sequence: the first call is safe, and so is what follows each of
its results. -/
theorem Safe.bind {x : Outcome α} {f : α → Outcome β} (hx : Safe x)
    (hf : ∀ a, x = ok a → Safe (f a)) : Safe (x >>= f) := by
  cases x with
  | ok a => exact hf a rfl
  | no => exact safe_no
  | fault => exact absurd hx not_safe_fault

/-! ## Runs -/

section

variable {σ κ : Type} {call : σ → κ → Outcome σ}

/-- Calls one after the other; one that returns `false` leaves the state as it is. -/
def relay (call : σ → κ → Outcome σ) : σ → List κ → Outcome σ
  | s, [] => ok s
  | s, c :: calls =>
    match call s c with
    | ok s' => relay call s' calls
    | no => relay call s calls
    | fault => fault

/-- An invariant under which every call is safe, and which every call keeps, makes a run safe. -/
theorem relay_safe (inv : σ → Prop) {allowed : κ → Prop}
    (hcall : ∀ s c, inv s → allowed c → Safe (call s c) ∧ ∀ s', call s c = ok s' → inv s')
    {calls : List κ} (hcalls : ∀ c ∈ calls, allowed c) {s : σ} (hs : inv s) :
    Safe (relay call s calls) := by
  induction calls generalizing s with
  | nil => exact safe_ok s
  | cons c calls ih =>
    obtain ⟨hc, hrest⟩ := List.forall_mem_cons.mp hcalls
    obtain ⟨hsafe, hkept⟩ := hcall s c hs hc
    unfold relay
    cases hanswer : call s c with
    | ok s' => exact ih hrest (hkept s' hanswer)
    | no => exact ih hrest hs
    | fault =>
      rw [hanswer] at hsafe
      exact absurd hsafe not_safe_fault

/-- In a run of one call, that call. -/
theorem safe_of_relay_single {s : σ} {c : κ} (h : Safe (relay call s [c])) : Safe (call s c) := by
  unfold relay at h
  cases hanswer : call s c with
  | ok s' => exact safe_ok s'
  | no => exact safe_no
  | fault =>
    rw [hanswer] at h
    exact absurd h not_safe_fault

end

end Outcome

end Lib
