import Mathlib.Data.Set.Card
import Mathlib.Order.Interval.Finset.Nat

/-!
# The generator of the resampling tests

`Rng` is xoshiro256**. `Rng::below` draws a number below `n` from it: a word
times `n`, shifted right by the width of a word, and words whose product has a
small low half are drawn again. Nothing but the words matters, so `below` is
defined for any source of words.

The low halves that are accepted leave an interval of `n * (2 ^ 64 / n)`
products for each result, and every interval of that length holds as many
multiples of `n` (`card_mulShift`). So each result has the same number of words
(`ncard_accepted`).
-/

namespace Montauk.Stats

/-! ## Multiples of `n` in equal intervals -/

theorem ceilDiv_le_iff {n : Nat} (hn : 0 < n) (a w : Nat) : (a + (n - 1)) / n ≤ w ↔ a ≤ w * n := by
  rw [← Nat.lt_succ_iff, Nat.div_lt_iff_lt_mul hn, Nat.succ_mul]
  omega

/-- Multiply and shift, with the short intervals cut off: every result has the
same number of words. -/
theorem card_mulShift {N n k : Nat} (hk : k < n) :
    ((Finset.range N).filter fun w => N % n ≤ w * n % N ∧ w * n / N = k).card = N / n := by
  have hn : 0 < n := Nat.zero_lt_of_lt hk
  rcases Nat.eq_zero_or_pos N with rfl | hN
  · rw [Nat.zero_div]
    rfl
  -- the products that are accepted for `k` start at `a`
  obtain ⟨a, ha⟩ : ∃ a, a = N * k + N % n := ⟨_, rfl⟩
  have hend : a + N / n * n = N * k + N := by
    have hsplit := Nat.div_add_mod N n
    rw [Nat.mul_comm] at hsplit
    omega
  have hset : ((Finset.range N).filter fun w => N % n ≤ w * n % N ∧ w * n / N = k)
      = Finset.Ico ((a + (n - 1)) / n) ((a + (n - 1)) / n + N / n) := by
    ext w
    have hupper : w < (a + (n - 1)) / n + N / n ↔ w * n < N * k + N := by
      have hceil : (a + (n - 1)) / n + N / n = (a + N / n * n + (n - 1)) / n := by
        rw [Nat.add_right_comm, Nat.add_mul_div_right _ _ hn]
      rw [hceil, ← hend, ← Nat.not_le, ← Nat.not_le, ceilDiv_le_iff hn]
    have hall : N * k + N ≤ n * N := by
      have hmul := Nat.mul_le_mul_right N (Nat.succ_le_of_lt hk)
      rwa [Nat.succ_mul, Nat.mul_comm k] at hmul
    have hdiv := Nat.div_add_mod (w * n) N
    have hmod := Nat.mod_lt (w * n) hN
    rw [Finset.mem_filter, Finset.mem_range, Finset.mem_Ico, ceilDiv_le_iff hn, hupper]
    constructor
    · rintro ⟨-, hlow, rfl⟩
      omega
    · rintro ⟨hlower, hlt⟩
      have hk' : w * n / N = k := by
        refine Nat.div_eq_of_lt_le ?_ ?_
        · rw [Nat.mul_comm]
          omega
        · rw [Nat.succ_mul, Nat.mul_comm k]
          exact hlt
      rw [hk'] at hdiv
      refine ⟨?_, by omega, hk'⟩
      exact Nat.lt_of_mul_lt_mul_right (Nat.lt_of_lt_of_le hlt (hall.trans (Nat.mul_comm n N).le))
  rw [hset, Nat.card_Ico, Nat.add_sub_cancel_left]

/-! ## The generator -/

def rotl (x : UInt64) (k : UInt64) : UInt64 := (x <<< k) ||| (x >>> (64 - k))

/-- The four words of the state. -/
structure Rng where
  s0 : UInt64
  s1 : UInt64
  s2 : UInt64
  s3 : UInt64

def Rng.nextU64 (g : Rng) : UInt64 × Rng :=
  let result := rotl (g.s1 * 5) 7 * 9
  let t := g.s1 <<< 17
  let s2 := g.s2 ^^^ g.s0
  let s3 := g.s3 ^^^ g.s1
  let s1 := g.s1 ^^^ s2
  let s0 := g.s0 ^^^ s3
  let s2 := s2 ^^^ t
  let s3 := rotl s3 45
  (result, ⟨s0, s1, s2, s3⟩)

section
variable {σ : Type} (next : σ → UInt64 × σ)

/-- The product of a word and `n`, of 128 bits. -/
def wide (w n : UInt64) : Nat := w.toNat * n.toNat

/-- `static_cast<uint64_t>(m)` -/
def lowHalf (m : Nat) : UInt64 := UInt64.ofNat m

/-- `static_cast<uint64_t>(m >> 64)` -/
def highHalf (m : Nat) : UInt64 := UInt64.ofNat (m >>> 64)

/-- `(-n) % n` -/
def threshold (n : UInt64) : UInt64 := (-n) % n

/-- The `while` loop of `Rng::below`, with at most `fuel` more words. -/
def belowLoop (n thresh : UInt64) : Nat → Nat → σ → Option (UInt64 × σ)
  | 0, m, g => if lowHalf m < thresh then none else some (highHalf m, g)
  | fuel + 1, m, g =>
      if lowHalf m < thresh then
        let (w, g) := next g
        belowLoop n thresh fuel (wide w n) g
      else some (highHalf m, g)

def below (fuel : Nat) (n : UInt64) (g : σ) : Option (UInt64 × σ) :=
  if n = 0 then some (0, g)
  else
    let (w, g) := next g
    let m := wide w n
    if lowHalf m < n then belowLoop next n (threshold n) fuel m g else some (highHalf m, g)

/-- The source after `i` words. -/
def draws (g : σ) : Nat → σ
  | 0 => g
  | i + 1 => (next (draws g i)).2

def word (g : σ) (i : Nat) : UInt64 := (next (draws next g i)).1

end

/-- `Rng::below` of the generator. -/
def Rng.below (fuel : Nat) (n : UInt64) (g : Rng) : Option (UInt64 × Rng) := Stats.below Rng.nextU64 fuel n g

/-! ## Words that are accepted -/

def Accepted (n w : UInt64) : Prop := ¬ lowHalf (wide w n) < threshold n

instance (n w : UInt64) : Decidable (Accepted n w) := inferInstanceAs (Decidable (¬ _))

def valueOf (n w : UInt64) : UInt64 := highHalf (wide w n)

variable {n w : UInt64}

theorem lowHalf_toNat (m : Nat) : (lowHalf m).toNat = m % 2 ^ 64 := UInt64.toNat_ofNat'

theorem toNat_pos (hn : 1 ≤ n) : 0 < n.toNat := UInt64.le_iff_toNat_le.mp hn

theorem threshold_toNat (hn : 1 ≤ n) : (threshold n).toNat = 2 ^ 64 % n.toNat := by
  have hpos := toNat_pos hn
  have hlt := n.toNat_lt
  have hsize : UInt64.size = 2 ^ 64 := rfl
  rw [threshold, UInt64.toNat_mod, UInt64.toNat_neg, hsize, Nat.mod_eq_of_lt (by omega : 2 ^ 64 - n.toNat < 2 ^ 64)]
  exact (Nat.mod_eq_sub_mod hlt.le).symm

theorem valueOf_toNat (n w : UInt64) : (valueOf n w).toNat = w.toNat * n.toNat / 2 ^ 64 := by
  have hlt : w.toNat * n.toNat / 2 ^ 64 < 2 ^ 64 :=
    Nat.div_lt_of_lt_mul (Nat.mul_lt_mul_of_lt_of_lt w.toNat_lt n.toNat_lt)
  rw [valueOf, highHalf, UInt64.toNat_ofNat', wide, Nat.shiftRight_eq_div_pow, Nat.mod_eq_of_lt hlt]

theorem accepted_iff (hn : 1 ≤ n) : Accepted n w ↔ 2 ^ 64 % n.toNat ≤ w.toNat * n.toNat % 2 ^ 64 := by
  rw [Accepted, UInt64.lt_iff_toNat_lt, lowHalf_toNat, threshold_toNat hn, wide, Nat.not_lt]

theorem valueOf_lt (hn : 1 ≤ n) (w : UInt64) : valueOf n w < n := by
  rw [UInt64.lt_iff_toNat_lt, valueOf_toNat]
  exact Nat.div_lt_of_lt_mul (Nat.mul_lt_mul_of_pos_right w.toNat_lt (toNat_pos hn))

theorem accepted_of_not_lt (hn : 1 ≤ n) (h : ¬ lowHalf (wide w n) < n) : Accepted n w := by
  intro hlt
  refine h (UInt64.lt_trans hlt ?_)
  rw [UInt64.lt_iff_toNat_lt, threshold_toNat hn]
  exact Nat.mod_lt _ (toNat_pos hn)

/-- **Every result has the same number of words.** -/
theorem ncard_accepted {k : UInt64} (hk : k < n) :
    {w | Accepted n w ∧ valueOf n w = k}.ncard = 2 ^ 64 / n.toNat := by
  have hlt := UInt64.lt_iff_toNat_lt.mp hk
  have hn : 1 ≤ n := UInt64.le_iff_toNat_le.mpr (Nat.zero_lt_of_lt hlt)
  have himage : UInt64.toNat '' {w | Accepted n w ∧ valueOf n w = k}
      = ((Finset.range (2 ^ 64)).filter fun w => 2 ^ 64 % n.toNat ≤ w * n.toNat % 2 ^ 64 ∧
          w * n.toNat / 2 ^ 64 = k.toNat : Finset Nat) := by
    ext v
    rw [Finset.mem_coe, Finset.mem_filter, Finset.mem_range]
    constructor
    · rintro ⟨w, ⟨haccepted, hvalue⟩, rfl⟩
      exact ⟨w.toNat_lt, (accepted_iff hn).mp haccepted, by rw [← valueOf_toNat, hvalue]⟩
    · rintro ⟨hv, hlow, hhigh⟩
      have hback : (UInt64.ofNat v).toNat = v := by rw [UInt64.toNat_ofNat', Nat.mod_eq_of_lt hv]
      refine ⟨UInt64.ofNat v, ⟨(accepted_iff hn).mpr (by rwa [hback]), ?_⟩, hback⟩
      rw [← UInt64.toNat_inj, valueOf_toNat, hback, hhigh]
  rw [← Set.ncard_image_of_injective _ (fun x y h => UInt64.toNat_inj.mp h), himage, Set.ncard_coe_finset,
    card_mulShift hlt]

/-! ## The loop -/

section
variable {σ : Type} {next : σ → UInt64 × σ}

theorem draws_succ (g : σ) (i : Nat) : draws next g (i + 1) = draws next (next g).2 i := by
  induction i with
  | zero => rfl
  | succ i ih => exact congrArg (fun s => (next s).2) ih

theorem word_succ (g : σ) (i : Nat) : word next g (i + 1) = word next (next g).2 i := by
  rw [word, word, draws_succ]

theorem belowLoop_spec {i fuel : Nat} {g : σ} (hrejected : ∀ j < i, ¬ Accepted n (word next g j))
    (haccepted : Accepted n (word next g i)) (hfuel : i ≤ fuel) :
    belowLoop next n (threshold n) fuel (wide (next g).1 n) (next g).2
      = some (valueOf n (word next g i), draws next g (i + 1)) := by
  induction i generalizing g fuel with
  | zero =>
      cases fuel with
      | zero => exact if_neg haccepted
      | succ fuel => exact if_neg haccepted
  | succ i ih =>
      obtain ⟨fuel, rfl⟩ := Nat.exists_eq_succ_of_ne_zero (Nat.ne_of_gt (Nat.zero_lt_of_lt hfuel))
      have hfirst : lowHalf (wide (next g).1 n) < threshold n := not_not.mp (hrejected 0 (Nat.zero_lt_succ i))
      have hrest : ∀ j < i, ¬ Accepted n (word next (next g).2 j) := fun j hj => by
        rw [← word_succ]
        exact hrejected (j + 1) (Nat.succ_lt_succ hj)
      rw [word_succ] at haccepted ⊢
      rw [draws_succ, belowLoop, if_pos hfirst]
      exact ih hrest haccepted (Nat.le_of_succ_le_succ hfuel)

theorem below_spec (hn : 1 ≤ n) {i fuel : Nat} {g : σ} (hrejected : ∀ j < i, ¬ Accepted n (word next g j))
    (haccepted : Accepted n (word next g i)) (hfuel : i ≤ fuel) :
    below next fuel n g = some (valueOf n (word next g i), draws next g (i + 1)) := by
  have hzero : n ≠ 0 := fun h => absurd (toNat_pos hn) (by rw [h]; decide)
  rw [below, if_neg hzero]
  by_cases hlow : lowHalf (wide (next g).1 n) < n
  · exact (if_pos hlow).trans (belowLoop_spec hrejected haccepted hfuel)
  · -- the first word is accepted without the threshold
    have hzeroth : i = 0 := Nat.eq_zero_of_not_pos fun hpos => hrejected 0 hpos (accepted_of_not_lt hn hlow)
    rw [hzeroth]
    exact if_neg hlow

/-- **`Rng::below` is uniform**: it returns a number below `n` that the first
accepted word gives, each number is given by as many accepted words, and the
fast path accepts what the threshold does. -/
theorem below_uniform {n : UInt64} (hn : 1 ≤ n) :
    (∀ {σ : Type} (next : σ → UInt64 × σ) (g : σ), (∃ j, Accepted n (word next g j)) →
      ∃ i, (∀ j < i, ¬ Accepted n (word next g j)) ∧ Accepted n (word next g i) ∧
        valueOf n (word next g i) < n ∧
        ∀ fuel ≥ i, below next fuel n g = some (valueOf n (word next g i), draws next g (i + 1))) ∧
    (∀ k < n, {w | Accepted n w ∧ valueOf n w = k}.ncard = 2 ^ 64 / n.toNat) ∧
    (∀ w, (¬ lowHalf (wide w n) < n ∨ ¬ lowHalf (wide w n) < threshold n) ↔ Accepted n w) := by
  refine ⟨fun next g hex => ?_, fun k hk => ncard_accepted hk, fun w => ?_⟩
  · have hfirst := Nat.find_spec hex
    have hrejected : ∀ j < Nat.find hex, ¬ Accepted n (word next g j) := fun j hj => Nat.find_min hex hj
    exact ⟨Nat.find hex, hrejected, hfirst, valueOf_lt hn _, fun fuel hfuel => below_spec hn hrejected hfirst hfuel⟩
  · constructor
    · rintro (hfast | hfull)
      · exact accepted_of_not_lt hn hfast
      · exact hfull
    · exact .inr

/-- Draws below three from a sequence whose first word is rejected. -/
theorem below_uniform_three :
    ∃ i, (∀ j < i, ¬ Accepted 3 (word (fun s : Nat => (UInt64.ofNat s, s + 1)) 0 j)) ∧
      Accepted 3 (word (fun s : Nat => (UInt64.ofNat s, s + 1)) 0 i) ∧
      valueOf 3 (word (fun s : Nat => (UInt64.ofNat s, s + 1)) 0 i) < 3 ∧
      ∀ fuel ≥ i, below (fun s : Nat => (UInt64.ofNat s, s + 1)) fuel 3 0
        = some (valueOf 3 (word (fun s : Nat => (UInt64.ofNat s, s + 1)) 0 i),
            draws (fun s : Nat => (UInt64.ofNat s, s + 1)) 0 (i + 1)) :=
  (below_uniform (by decide)).1 _ 0 ⟨1, by decide⟩

end

end Montauk.Stats
