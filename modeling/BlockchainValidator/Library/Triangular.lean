import Mathlib.Algebra.BigOperators.Intervals
import Mathlib.Algebra.Ring.Parity
import Mathlib.Data.Nat.ModEq
import Mathlib.Data.Nat.Prime.Basic
import Mathlib.Tactic.Ring

/-! # Triangular numbers modulo powers of two

A stream that starts anywhere and grows by 0, then by 1, then by 2 and so on
takes each value below a power of two once before it takes any again.
-/

namespace BlockchainValidator.Triangular

open Finset

variable {width offset left right : Nat}

/-- `0 + 1 + … + n`. -/
def triangular (n : Nat) : Nat := ∑ i ∈ range (n + 1), i

theorem triangular_eq_add (n : Nat) : triangular n = ∑ i ∈ range n, i + n := sum_range_succ _ _

theorem two_mul_triangular (n : Nat) : 2 * triangular n = n * (n + 1) := by
  rw [triangular, Nat.mul_comm, sum_range_id_mul_two, Nat.add_sub_cancel, Nat.mul_comm]

/-- One of the two factors of a product divisible by a power of two holds all of
it, if the other is odd. -/
theorem two_pow_dvd_of_odd {odd even : Nat} (isOdd : Odd odd) (divides : 2 ^ width ∣ odd * even) :
    2 ^ width ∣ even :=
  (Nat.Coprime.pow_left width isOdd.coprime_two_left).dvd_of_dvd_mul_left divides

theorem triangular_modEq_le (ordered : left ≤ right) (bound : right < 2 ^ width)
    (same : triangular left ≡ triangular right [MOD 2 ^ width]) : left = right := by
  obtain ⟨gap, rfl⟩ := Nat.exists_eq_add_of_le ordered
  have product : 2 * triangular (left + gap) = 2 * triangular left + gap * (2 * left + gap + 1) := by
    rw [two_mul_triangular, two_mul_triangular]
    ring
  have grows : triangular left ≤ triangular (left + gap) := by omega
  have divides : 2 ^ (width + 1) ∣ gap * (2 * left + gap + 1) := by
    obtain ⟨quotient, difference⟩ := (Nat.modEq_iff_dvd' grows).mp same
    refine ⟨quotient, ?_⟩
    rw [Nat.pow_succ, Nat.mul_right_comm, ← difference]
    omega
  rcases Nat.even_or_odd gap with even | odd
  · have other : Odd (2 * left + gap + 1) := by
      rw [Nat.add_right_comm]
      exact (even_two_mul left).add_one.add_even even
    have within := two_pow_dvd_of_odd other ((Nat.mul_comm _ _).symm ▸ divides)
    have small : gap < 2 ^ (width + 1) := by
      rw [Nat.pow_succ]
      omega
    have zero := Nat.eq_zero_of_dvd_of_lt within small
    omega
  · have within := Nat.le_of_dvd (by omega) (two_pow_dvd_of_odd odd divides)
    rw [Nat.pow_succ] at within
    omega

theorem triangular_modEq (leftBound : left < 2 ^ width) (rightBound : right < 2 ^ width)
    (same : offset + triangular left ≡ offset + triangular right [MOD 2 ^ width]) : left = right := by
  have same := Nat.ModEq.add_left_cancel' offset same
  rcases Nat.le_total left right with ordered | ordered
  · exact triangular_modEq_le ordered rightBound same
  · exact (triangular_modEq_le ordered leftBound same.symm).symm

end BlockchainValidator.Triangular
