import Hrbl.Lib.Outcome

/-!
# Cursors

A cursor hands out the items of a sequence one call after the other. `Follows` says that it
does what an indexed access to the same sequence does, so that its calls end where the indexed
access fails first.
-/

namespace Lib

namespace Cursor

open Outcome

variable {σ γ : Type} (next : σ → Outcome (σ × γ))

/-! ## Calls -/

/-- One call: what it hands out, and the cursor afterwards. A call that fails hands out nothing
and leaves the cursor as it was. -/
def call (s : σ) : Outcome (Option γ × σ) :=
  match next s with
  | .ok (s', a) => .ok (some a, s')
  | .no => .ok (none, s)
  | .fault => .fault

/-- So many calls. -/
def calls : Nat → σ → Outcome (List (Option γ) × σ)
  | 0, s => .ok ([], s)
  | n + 1, s => do
    let (answer, s) ← call next s
    let (answers, s) ← calls n s
    return (answer :: answers, s)

variable {next}

/-- A cursor that has failed fails for good. -/
theorem calls_stopped {s : σ} (h : next s = .no) (n : Nat) :
    calls next n s = .ok (List.replicate n none, s) := by
  induction n with
  | zero => rfl
  | succ n ih =>
    rw [calls, call, h]
    simp only [ok_bind, ih]
    rfl

/-! ## Items in order -/

/-- The items of an indexed access up to its first failure. -/
structure Front (item : Nat → Outcome γ) (count : Nat) (items : List γ) : Prop where
  length_le : items.length ≤ count
  get : ∀ i a, items[i]? = some a → item i = .ok a
  fails : items.length < count → item items.length = .no

theorem exists_front {item : Nat → Outcome γ} {count : Nat} (h : ∀ i < count, Safe (item i)) :
    ∃ items, Front item count items := by
  induction count generalizing item with
  | zero =>
    refine ⟨[], Nat.le_refl _, ?_, fun hlt => absurd hlt (Nat.lt_irrefl _)⟩
    intro i a hi
    cases hi
  | succ count ih =>
    cases hfirst : item 0 with
    | fault => exact absurd hfirst (h 0 (Nat.succ_pos _))
    | no =>
      refine ⟨[], Nat.zero_le _, ?_, fun _ => hfirst⟩
      intro i a hi
      cases hi
    | ok a =>
      have hrest : ∀ i < count, Safe ((fun i => item (i + 1)) i) :=
        fun i hi => h (i + 1) (Nat.succ_lt_succ hi)
      obtain ⟨items, hitems⟩ := ih hrest
      refine ⟨a :: items, Nat.succ_le_succ hitems.length_le, ?_, ?_⟩
      · intro i x hi
        cases i with
        | zero =>
          cases hi
          exact hfirst
        | succ i => exact hitems.get i x hi
      · intro hlt
        exact hitems.fails (Nat.lt_of_succ_lt_succ hlt)

/-- The states of a cursor over a sequence of so many items, and what each call does there. -/
structure Follows (next : σ → Outcome (σ × γ)) (state : Nat → σ) (item : Nat → Outcome γ)
    (count : Nat) : Prop where
  step : ∀ i < count, next (state i) = item i >>= fun a => .ok (state (i + 1), a)
  stop : next (state count) = .no

/-- At the end of the front the cursor fails. -/
theorem Follows.next_front {state : Nat → σ} {item : Nat → Outcome γ} {count : Nat}
    (h : Follows next state item count) {items : List γ} (hitems : Front item count items) :
    next (state items.length) = .no := by
  rcases Nat.lt_or_eq_of_le hitems.length_le with hlt | heq
  · rw [h.step _ hlt, hitems.fails hlt]
    rfl
  · rw [heq]
    exact h.stop

/-- The calls hand out the front in order, and nothing more. -/
theorem Follows.calls_eq {state : Nat → σ} {item : Nat → Outcome γ} {count : Nat}
    (h : Follows next state item count) {items : List γ} (hitems : Front item count items)
    (n : Nat) : calls next n (state 0) =
      .ok ((items.take n).map some ++ List.replicate (n - items.length) none,
        state (min n items.length)) := by
  -- from any place of the front on, by induction on the calls
  suffices hfrom : ∀ i ≤ items.length, calls next n (state i) =
      .ok (((items.drop i).take n).map some ++ List.replicate (n - (items.length - i)) none,
        state (min (i + n) items.length)) by
    have hstart := hfrom 0 (Nat.zero_le _)
    rwa [List.drop_zero, Nat.zero_add, Nat.sub_zero] at hstart
  intro i hi
  induction n generalizing i with
  | zero =>
    rw [calls, List.take_zero, Nat.zero_sub, Nat.add_zero, Nat.min_eq_left hi]
    rfl
  | succ n ih =>
    rcases Nat.lt_or_eq_of_le hi with hlt | rfl
    · have hget : items[i]? = some items[i] := List.getElem?_eq_getElem hlt
      have hstep := h.step i (Nat.lt_of_lt_of_le hlt hitems.length_le)
      rw [hitems.get i _ hget, ok_bind] at hstep
      rw [calls, call, hstep]
      simp only [ok_bind]
      rw [ih (i + 1) hlt, List.drop_eq_getElem_cons hlt, List.take_succ_cons,
        show n + 1 - (items.length - i) = n - (items.length - (i + 1)) by omega,
        show i + (n + 1) = i + 1 + n by omega]
      rfl
    · rw [calls_stopped (h.next_front hitems), List.drop_length, List.take_nil, Nat.sub_self,
        Nat.sub_zero, Nat.min_eq_right (by omega)]
      rfl

end Cursor

end Lib
