import Mathlib.Computability.Language
import Mathlib.Order.CompletePartialOrder

/-!
# Bounded powers over one symbol set

In a Kleene algebra, the four values an expression over a single element
`s` can take: `s` itself, its option, its plus and its star
(`PowerShape`). For these a product of one full factor and further plain
copies of `s` already covers every power of the factor
(`PowerShape.pow_le`, `PowerShape.pow_le_opt`), which is what a bounded
repeat that copies only the symbol set needs.
-/

open scoped Computability

namespace Montauk

variable {K : Type*} [KleeneAlgebra K]

/-- The values over one element, and whether they cover `1`. -/
inductive PowerShape (s : K) : K → Bool → Prop
  | single : PowerShape s s false
  | plus : PowerShape s (s * s∗) false
  | opt : PowerShape s (1 + s) true
  | star : PowerShape s s∗ true

theorem one_add_kstar (s : K) : (1 + s)∗ = s∗ := by
  refine le_antisymm ?_ (kstar_mono (le_add_of_nonneg_left zero_le))
  refine kstar_le_of_mul_le_left one_le_kstar ?_
  rw [mul_add, mul_one]
  exact add_le le_rfl kstar_mul_le_kstar

theorem one_add_mul_kstar_self (s : K) : (1 + s) * s∗ = s∗ := by
  rw [add_mul, one_mul]
  exact add_eq_left_iff_le.mpr mul_kstar_le_kstar

theorem mul_kstar_kstar (s : K) : (s * s∗)∗ = s∗ := by
  refine le_antisymm ?_ (kstar_mono ?_)
  · calc (s * s∗)∗ ≤ s∗∗ := kstar_mono mul_kstar_le_kstar
      _ = s∗ := kstar_idem s
  · calc s = s * 1 := (mul_one s).symm
      _ ≤ s * s∗ := by gcongr; exact one_le_kstar

namespace PowerShape

variable {s x : K} {nul : Bool}

theorem kstar_eq (h : PowerShape s x nul) : x∗ = s∗ := by
  cases h with
  | single => rfl
  | plus => exact mul_kstar_kstar s
  | opt => exact one_add_kstar s
  | star => exact kstar_idem s

theorem one_add (h : PowerShape s x nul) : PowerShape s (1 + x) true := by
  cases h with
  | single => exact .opt
  | plus =>
      rw [one_add_mul_kstar]
      exact .star
  | opt =>
      rw [← add_assoc, add_idem]
      exact .opt
  | star =>
      rw [add_eq_right_iff_le.mpr one_le_kstar]
      exact .star

theorem self_plus (h : PowerShape s x nul) : PowerShape s (x * x∗) nul := by
  rw [h.kstar_eq]
  cases h with
  | single => exact .plus
  | plus =>
      rw [mul_assoc, kstar_mul_kstar]
      exact .plus
  | opt =>
      rw [one_add_mul_kstar_self]
      exact .star
  | star =>
      rw [kstar_mul_kstar]
      exact .star

theorem self_star (h : PowerShape s x nul) : PowerShape s x∗ true := by
  rw [h.kstar_eq]
  exact .star

theorem le (h : PowerShape s x nul) : s ≤ x := by
  cases h with
  | single => exact le_rfl
  | plus =>
      calc s = s * 1 := (mul_one s).symm
        _ ≤ s * s∗ := by gcongr; exact one_le_kstar
  | opt => exact le_add_of_nonneg_left zero_le
  | star => exact le_kstar

theorem mul_self_le (h : PowerShape s x nul) : x * x ≤ x * (1 + s) := by
  cases h with
  | single =>
      gcongr
      exact le_add_of_nonneg_left zero_le
  | plus =>
      calc s * s∗ * (s * s∗) ≤ s * s∗ * s∗ := by gcongr; exact mul_kstar_le_kstar
        _ = s * s∗ := by rw [mul_assoc, kstar_mul_kstar]
        _ = s * s∗ * 1 := (mul_one _).symm
        _ ≤ s * s∗ * (1 + s) := by gcongr; exact le_add_of_nonneg_right zero_le
  | opt => exact le_rfl
  | star =>
      calc s∗ * s∗ = s∗ := kstar_mul_kstar s
        _ = s∗ * 1 := (mul_one _).symm
        _ ≤ s∗ * (1 + s) := by gcongr; exact le_add_of_nonneg_right zero_le

theorem mul_self_le_single (h : PowerShape s x false) : x * x ≤ x * s := by
  cases h with
  | single => exact le_rfl
  | plus =>
      have hcomm : s∗ * s = s * s∗ := by
        refine le_antisymm (kstar_mul_le ?_ ?_) (mul_kstar_le ?_ ?_)
        · calc s = s * 1 := (mul_one s).symm
            _ ≤ s * s∗ := by gcongr; exact one_le_kstar
        · gcongr
          exact mul_kstar_le_kstar
        · calc s = 1 * s := (one_mul s).symm
            _ ≤ s∗ * s := by gcongr; exact one_le_kstar
        · gcongr
          exact kstar_mul_le_kstar
      refine le_of_eq ?_
      calc s * s∗ * (s * s∗) = s * s∗ * (s∗ * s) := by rw [hcomm]
        _ = s * (s∗ * s∗) * s := by simp only [mul_assoc]
        _ = s * s∗ * s := by rw [kstar_mul_kstar]

theorem pow_le_of_mul_self_le {y : K} (hy : x * x ≤ x * y) : ∀ n, x ^ (n + 1) ≤ x * y ^ n
  | 0 => by rw [pow_zero, mul_one, zero_add, pow_one]
  | n + 1 =>
      calc x ^ (n + 2) = x * x ^ (n + 1) := pow_succ' x (n + 1)
        _ ≤ x * (x * y ^ n) := by gcongr; exact pow_le_of_mul_self_le hy n
        _ = x * x * y ^ n := (mul_assoc _ _ _).symm
        _ ≤ x * y * y ^ n := by gcongr
        _ = x * y ^ (n + 1) := by rw [mul_assoc, ← pow_succ']

theorem pow_le_opt (h : PowerShape s x nul) (n : Nat) : x ^ (n + 1) ≤ x * (1 + s) ^ n :=
  pow_le_of_mul_self_le h.mul_self_le n

theorem pow_le (h : PowerShape s x false) (n : Nat) : x ^ (n + 1) ≤ x * s ^ n :=
  pow_le_of_mul_self_le h.mul_self_le_single n

end PowerShape

end Montauk
