import Mathlib

/-!
# Rounding up to a multiple

`alignUpNat value a` is the least multiple of `a` that is not below `value`. On
machine words the same number is computed with a mask (`and_not_mask`).
-/

namespace Lib

/-- `value` rounded up to a multiple of `alignment`. -/
def alignUpNat (value alignment : Nat) : Nat :=
  (value + alignment - 1) / alignment * alignment

theorem le_alignUpNat {a : Nat} (ha : 0 < a) (value : Nat) : value ≤ alignUpNat value a := by
  unfold alignUpNat
  have hdiv := Nat.div_add_mod (value + a - 1) a
  have hmod := Nat.mod_lt (value + a - 1) ha
  rw [Nat.mul_comm] at hdiv
  omega

theorem alignUpNat_lt {a : Nat} (ha : 0 < a) (value : Nat) : alignUpNat value a < value + a := by
  unfold alignUpNat
  have hle := Nat.div_mul_le_self (value + a - 1) a
  omega

theorem dvd_alignUpNat (a value : Nat) : a ∣ alignUpNat value a :=
  Nat.dvd_mul_left a _

@[simp] theorem alignUpNat_one (value : Nat) : alignUpNat value 1 = value := by
  simp [alignUpNat]

/-- A multiple is its own rounding. -/
theorem alignUpNat_of_dvd {a value : Nat} (ha : 0 < a) (h : a ∣ value) :
    alignUpNat value a = value := by
  obtain ⟨k, rfl⟩ := h
  have hdiv : (a * k + a - 1) / a = k := by
    have hzero : (a - 1) / a = 0 := Nat.div_eq_of_lt (by omega)
    rw [show a * k + a - 1 = a * k + (a - 1) by omega, Nat.mul_add_div ha, hzero, Nat.add_zero]
  rw [alignUpNat, hdiv, Nat.mul_comm]

/-- Rounding is the same from any base that is itself a multiple. -/
theorem alignUpNat_add {a base : Nat} (ha : 0 < a) (h : a ∣ base) (value : Nat) :
    alignUpNat (base + value) a = base + alignUpNat value a := by
  obtain ⟨k, rfl⟩ := h
  have hdiv : (a * k + value + a - 1) / a = k + (value + a - 1) / a := by
    rw [show a * k + value + a - 1 = a * k + (value + a - 1) by omega, Nat.mul_add_div ha]
  rw [alignUpNat, alignUpNat, hdiv, Nat.add_mul, Nat.mul_comm k a]

/-- Clearing the low `k` bits of a 64-bit number rounds it down to a multiple of
`2 ^ k`. -/
theorem and_not_mask (n k : Nat) (hk : k ≤ 64) (hn : n < 2 ^ 64) :
    n &&& (2 ^ 64 - (2 ^ k - 1 + 1)) = n / 2 ^ k * 2 ^ k := by
  apply Nat.eq_of_testBit_eq
  intro i
  have hmask : 2 ^ k - 1 < 2 ^ 64 := by
    have hpow := Nat.pow_le_pow_right (show 0 < 2 by omega) hk
    have hpos := Nat.two_pow_pos k
    omega
  rw [Nat.testBit_and, Nat.testBit_two_pow_sub_succ hmask, Nat.testBit_two_pow_sub_one,
    Nat.testBit_mul_two_pow]
  by_cases hik : k ≤ i
  · by_cases hi : i < 64
    · simp [hik, hi, Nat.testBit_div_two_pow, Nat.not_lt.mpr hik]
    · have hpow := Nat.pow_le_pow_right (show 0 < 2 by omega) (Nat.not_lt.mp hi)
      have hbit : n.testBit i = false :=
        Nat.testBit_lt_two_pow (Nat.lt_of_lt_of_le hn hpow)
      simp [hik, hi, Nat.testBit_div_two_pow, hbit]
  · simp [hik, Nat.lt_of_not_le hik]

end Lib
