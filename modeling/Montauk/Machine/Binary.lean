import Mathlib.Algebra.Order.Ring.Int
import Mathlib.Order.Monotone.Basic

/-!
# Binary interchange formats in order

A datum of a binary format is a sign bit above `k` bits: an exponent and `f`
fraction bits. Its value, infinities included and NaNs aside, is counted in
units of the smallest subnormal, so it is an integer (`signed`). The magnitude
grows with the bits below the sign (`magnitude_strictMono`), and flipping the
sign bit of a positive datum and all bits of a negative one gives bits in the
order of the values (`signed_le_of_orderBits_le`), except that the two zeros
are told apart (`signed_eq_iff`).
-/

namespace Montauk.Binary

/-- The magnitude of the bits below the sign, subnormal or normal. -/
def magnitude (f m : Nat) : Nat := if m < 2 ^ f then m else (2 ^ f + m % 2 ^ f) * 2 ^ (m / 2 ^ f - 1)

def signed (f k u : Nat) : Int :=
  if u < 2 ^ k then (magnitude f u : Int) else -(magnitude f (u - 2 ^ k) : Int)

/-- The bits that are compared in place of a datum. -/
def orderBits (k u : Nat) : Nat := if u < 2 ^ k then u + 2 ^ k else 2 ^ (k + 1) - 1 - u

variable {f k m m' u v : Nat}

theorem magnitude_lt_succ (f m : Nat) : magnitude f m < magnitude f (m + 1) := by
  have hpos := Nat.two_pow_pos f
  rw [magnitude, magnitude]
  by_cases hsub : m + 1 < 2 ^ f
  · rw [if_pos (Nat.lt_of_succ_lt hsub), if_pos hsub]
    exact Nat.lt_succ_self m
  · rw [if_neg hsub]
    by_cases hlast : m < 2 ^ f
    · -- from the largest subnormal to the smallest normal
      obtain hm : m + 1 = 2 ^ f := by omega
      rw [if_pos hlast, hm, Nat.mod_self, Nat.div_self hpos, Nat.add_zero, Nat.sub_self, Nat.pow_zero,
        Nat.mul_one]
      exact hlast
    · rw [if_neg hlast]
      obtain ⟨e, he⟩ : ∃ e, m / 2 ^ f = e + 1 :=
        ⟨m / 2 ^ f - 1, (Nat.sub_add_cancel (Nat.div_pos (Nat.le_of_not_lt hlast) hpos)).symm⟩
      have hmod := Nat.mod_lt m hpos
      have hsplit := Nat.div_add_mod m (2 ^ f)
      rw [he] at hsplit ⊢
      by_cases hcarry : m % 2 ^ f + 1 < 2 ^ f
      · have hdiv : (m + 1) / 2 ^ f = e + 1 := by
          rw [← hsplit, Nat.add_assoc, Nat.mul_add_div hpos, Nat.div_eq_of_lt hcarry, Nat.add_zero]
        have hrest : (m + 1) % 2 ^ f = m % 2 ^ f + 1 := by
          conv_lhs => rw [← hsplit, Nat.add_assoc, Nat.mul_add_mod]
          exact Nat.mod_eq_of_lt hcarry
        rw [hdiv, hrest]
        exact Nat.mul_lt_mul_of_pos_right (by omega) (Nat.two_pow_pos _)
      · -- the fraction is full, the exponent goes up
        have hnext : m + 1 = 2 ^ f * (e + 2) := by
          rw [Nat.mul_add, Nat.mul_two]
          rw [Nat.mul_add, Nat.mul_one] at hsplit
          omega
        rw [hnext, Nat.mul_div_cancel_left _ hpos, Nat.mul_mod_right]
        have hpow : (2 ^ f + 0) * 2 ^ (e + 2 - 1) = (2 ^ f + 2 ^ f) * 2 ^ (e + 1 - 1) := by
          rw [Nat.add_zero, ← Nat.mul_two, Nat.mul_assoc, ← Nat.pow_succ']
          rfl
        rw [hpow]
        exact Nat.mul_lt_mul_of_pos_right (by omega) (Nat.two_pow_pos _)

theorem magnitude_strictMono (f : Nat) : StrictMono (magnitude f) :=
  strictMono_nat_of_lt_succ (magnitude_lt_succ f)

theorem magnitude_zero (f : Nat) : magnitude f 0 = 0 := if_pos (Nat.two_pow_pos f)

theorem orderBits_lt (hu : u < 2 ^ (k + 1)) : orderBits k u < 2 ^ (k + 1) := by
  have hpow : 2 ^ (k + 1) = 2 ^ k + 2 ^ k := by rw [Nat.pow_succ, Nat.mul_two]
  rw [orderBits]
  split <;> omega

theorem signed_le_of_orderBits_le (hu : u < 2 ^ (k + 1)) (hv : v < 2 ^ (k + 1))
    (h : orderBits k u ≤ orderBits k v) : signed f k u ≤ signed f k v := by
  have hmono := (magnitude_strictMono f).monotone
  have hpow : 2 ^ (k + 1) = 2 ^ k + 2 ^ k := by rw [Nat.pow_succ, Nat.mul_two]
  rw [orderBits, orderBits] at h
  rw [signed, signed]
  by_cases hu0 : u < 2 ^ k
  · rw [if_pos hu0] at h ⊢
    by_cases hv0 : v < 2 ^ k
    · rw [if_pos hv0] at h ⊢
      exact Int.ofNat_le.mpr (hmono (by omega))
    · rw [if_neg hv0] at h
      omega
  · rw [if_neg hu0] at h ⊢
    by_cases hv0 : v < 2 ^ k
    · rw [if_pos hv0]
      exact Int.le_trans (Int.neg_nonpos_of_nonneg (Int.natCast_nonneg _)) (Int.natCast_nonneg _)
    · rw [if_neg hv0] at h ⊢
      exact Int.neg_le_neg (Int.ofNat_le.mpr (hmono (by omega)))

theorem magnitude_eq_zero_iff : magnitude f m = 0 ↔ m = 0 :=
  ⟨fun h => (magnitude_strictMono f).injective (h.trans (magnitude_zero f).symm),
    fun h => by rw [h, magnitude_zero]⟩

theorem signed_eq_iff : signed f k u = signed f k v ↔ u = v ∨ u = 0 ∧ v = 2 ^ k ∨ u = 2 ^ k ∧ v = 0 := by
  have hpos := Nat.two_pow_pos k
  have hinj := (magnitude_strictMono f).injective
  rw [signed, signed]
  by_cases hu0 : u < 2 ^ k
  · rw [if_pos hu0]
    by_cases hv0 : v < 2 ^ k
    · rw [if_pos hv0, Int.ofNat_inj, hinj.eq_iff]
      omega
    · rw [if_neg hv0]
      have hzero : (magnitude f u : Int) = -(magnitude f (v - 2 ^ k) : Int)
          ↔ magnitude f u = 0 ∧ magnitude f (v - 2 ^ k) = 0 := by omega
      rw [hzero, magnitude_eq_zero_iff, magnitude_eq_zero_iff]
      omega
  · rw [if_neg hu0]
    by_cases hv0 : v < 2 ^ k
    · rw [if_pos hv0]
      have hzero : -(magnitude f (u - 2 ^ k) : Int) = (magnitude f v : Int)
          ↔ magnitude f (u - 2 ^ k) = 0 ∧ magnitude f v = 0 := by omega
      rw [hzero, magnitude_eq_zero_iff, magnitude_eq_zero_iff]
      omega
    · rw [if_neg hv0, Int.neg_inj, Int.ofNat_inj, hinj.eq_iff]
      omega

/-! ## Both directions -/

/-- The value, for a descending order turned round. -/
def directed (f k : Nat) (desc : Bool) (u : Nat) : Int := if desc then -signed f k u else signed f k u

/-- The bits that are compared in either direction. -/
def directedBits (k : Nat) (desc : Bool) (u : Nat) : Nat :=
  if desc then 2 ^ (k + 1) - 1 - orderBits k u else orderBits k u

/-- The two zeros, in the order that is turned round. -/
def ZerosApart (k : Nat) (desc : Bool) (u v : Nat) : Prop :=
  if desc then u = 2 ^ k ∧ v = 0 else u = 0 ∧ v = 2 ^ k

variable {desc : Bool}

theorem directed_le_of_directedBits_le (hu : u < 2 ^ (k + 1)) (hv : v < 2 ^ (k + 1))
    (h : directedBits k desc u ≤ directedBits k desc v) : directed f k desc u ≤ directed f k desc v := by
  rw [directedBits, directedBits] at h
  rw [directed, directed]
  cases desc with
  | false => exact signed_le_of_orderBits_le hu hv h
  | true =>
      have hbu := orderBits_lt hu
      have hbv := orderBits_lt hv
      rw [if_pos rfl, if_pos rfl] at h
      exact Int.neg_le_neg (signed_le_of_orderBits_le hv hu (by omega))

/-- Equal values are told apart exactly if they are the two zeros. -/
theorem directedBits_tie_iff (hu : u < 2 ^ (k + 1)) (hv : v < 2 ^ (k + 1)) :
    (directed f k desc u = directed f k desc v → directedBits k desc u ≤ directedBits k desc v)
      ↔ ¬ ZerosApart k desc u v := by
  have hpow : 2 ^ (k + 1) = 2 ^ k + 2 ^ k := by rw [Nat.pow_succ, Nat.mul_two]
  have hpos := Nat.two_pow_pos k
  have heq : directed f k desc u = directed f k desc v ↔ u = v ∨ u = 0 ∧ v = 2 ^ k ∨ u = 2 ^ k ∧ v = 0 := by
    rw [directed, directed, ← @signed_eq_iff f k u v]
    cases desc with
    | false => exact Iff.rfl
    | true => exact Int.neg_inj
  rw [heq, ZerosApart, directedBits, directedBits, orderBits, orderBits]
  cases desc with
  | false =>
      rw [if_neg Bool.false_ne_true, if_neg Bool.false_ne_true, if_neg Bool.false_ne_true]
      split <;> split <;> omega
  | true =>
      rw [if_pos rfl, if_pos rfl, if_pos rfl]
      split <;> split <;> omega

end Montauk.Binary
