import Mathlib.Algebra.Order.Field.Rat
import Mathlib.Data.List.ProdSigma
import Mathlib.Tactic.Positivity
import Montauk.Sort.Gallop

/-!
# Cliff's delta

`cliffs_delta` compares every element of one sample with every element of the
other, by two binary searches in a sorted copy for each. The searches count the
elements that are smaller and those that are not larger (`searchsorted_spec`),
so the sum is the number of pairs in one order less those in the other
(`cliffsAcc_spec`); ties count for neither.

The values are those of any linear order, which the doubles without NaN are.
The copy is sorted by the library's sort, of which only is used that it sorts
(`SortsAsc`).
-/

namespace Montauk.Stats

open Montauk.Sort

/-! ## Counting pairs -/

theorem countP_of_split {α : Type} {p : α → Prop} [DecidablePred p] {xs ys : List α}
    (hxs : ∀ x ∈ xs, p x) (hys : ∀ y ∈ ys, ¬ p y) :
    (xs ++ ys).countP (fun x => p x) = xs.length := by
  have hall : xs.countP (fun x => p x) = xs.length := List.countP_eq_length.mpr fun x hx => decide_eq_true (hxs x hx)
  have hnone : ys.countP (fun x => p x) = 0 :=
    List.countP_eq_zero.mpr fun y hy => by rw [decide_eq_false (hys y hy)]; exact Bool.false_ne_true
  rw [List.countP_append, hall, hnone, Nat.add_zero]

section
variable {α β : Type} (r : α → β → Prop) [∀ x y, Decidable (r x y)]

def pairs (a : List α) (b : List β) : Nat := (a ×ˢ b).countP fun p => r p.1 p.2

variable {r}

theorem pairs_cons (x : α) (a : List α) (b : List β) :
    pairs r (x :: a) b = b.countP (fun y => r x y) + pairs r a b := by
  rw [pairs, List.product_cons, List.countP_append, List.countP_map]
  rfl

theorem pairs_cons_right (a : List α) (y : β) (b : List β) :
    pairs r a (y :: b) = a.countP (fun x => r x y) + pairs r a b := by
  induction a with
  | nil => rfl
  | cons x a ih =>
      rw [pairs_cons, ih, pairs_cons, List.countP_cons, List.countP_cons]
      omega

theorem pairs_swap (a : List α) (b : List β) : pairs r a b = pairs (fun y x => r x y) b a := by
  induction a with
  | nil => rw [pairs, List.nil_product, List.countP_nil, pairs, List.product_nil, List.countP_nil]
  | cons x a ih => rw [pairs_cons, pairs_cons_right, ih]

theorem pairs_perm {a a' : List α} {b b' : List β} (ha : a.Perm a') (hb : b.Perm b') :
    pairs r a b = pairs r a' b' := (ha.product hb).countP_eq _

theorem pairs_le (a : List α) (b : List β) : pairs r a b ≤ a.length * b.length := by
  rw [pairs, ← List.length_product]
  exact List.countP_le_length

end

/-! ## The code -/

section
variable {κ : Type} [LinearOrder κ]

/-- `sublimation_searchsorted`, the loop of which is that of the gallop; `side`
is whether equal elements are passed. -/
def searchsorted (sorted : List κ) (value : κ) (side : Bool) : Option Nat :=
  gallopBisect (fun x => if side then decide (x ≤ value) else decide (x < value)) sorted (sorted.length + 1) 0
    sorted.length

/-- The loop over `a`, with the sorted copy `bs` and what `acc` is so far. -/
def cliffsLoop (bs : List κ) : List κ → Int → Option Int
  | [], acc => some acc
  | x :: a, acc => do
      let less ← searchsorted bs x false
      let upper ← searchsorted bs x true
      let gt := bs.length - upper
      cliffsLoop bs a (acc + ((less : Int) - (gt : Int)))

/-- `cliffs_delta`, by the sort of the copy. -/
def cliffsDelta (sortAsc : List κ → List κ) (a b : List κ) : Option ℚ :=
  if a = [] ∨ b = [] then some 0
  else do
    let bs := sortAsc b
    let acc ← cliffsLoop bs a 0
    some ((acc : ℚ) / ((a.length : ℚ) * (bs.length : ℚ)))

/-- What the sort is used for: an ascending rearrangement. -/
structure SortsAsc (sortAsc : List κ → List κ) : Prop where
  perm : ∀ v, (sortAsc v).Perm v
  sorted : ∀ v, Ascending id (sortAsc v)

/-! ## The searches -/

variable {sorted a b : List κ} {sortAsc : List κ → List κ}

theorem searchsorted_lower (h : Ascending id sorted) (value : κ) :
    ∃ xs ys, sorted = xs ++ ys ∧ (∀ x ∈ xs, x < value) ∧ (∀ y ∈ ys, value ≤ y) ∧
      searchsorted sorted value false = some xs.length := by
  obtain ⟨xs, ys, rfl, hxs, hys⟩ := h.split_lt value
  refine ⟨xs, ys, rfl, hxs, hys, ?_⟩
  refine gallopBisect_spec ⟨fun x hx => decide_eq_true (hxs x hx), fun y hy => decide_eq_false (hys y hy).not_gt⟩
    ?_ (Nat.zero_le _) ?_ (Nat.le_refl _)
  · omega
  · rw [List.length_append]
    omega

theorem searchsorted_upper (h : Ascending id sorted) (value : κ) :
    ∃ xs ys, sorted = xs ++ ys ∧ (∀ x ∈ xs, x ≤ value) ∧ (∀ y ∈ ys, value < y) ∧
      searchsorted sorted value true = some xs.length := by
  obtain ⟨xs, ys, rfl, hxs, hys⟩ := h.split_le value
  refine ⟨xs, ys, rfl, hxs, hys, ?_⟩
  refine gallopBisect_spec ⟨fun x hx => decide_eq_true (hxs x hx), fun y hy => decide_eq_false (hys y hy).not_ge⟩
    ?_ (Nat.zero_le _) ?_ (Nat.le_refl _)
  · omega
  · rw [List.length_append]
    omega

theorem searchsorted_spec (h : Ascending id sorted) (value : κ) :
    searchsorted sorted value false = some (sorted.countP fun y => y < value) ∧
    ∃ upper, searchsorted sorted value true = some upper ∧
      sorted.length - upper = sorted.countP fun y => value < y := by
  obtain ⟨xs, ys, hsplit, hxs, hys, hlower⟩ := searchsorted_lower h value
  obtain ⟨us, vs, hsplit', hus, hvs, hupper⟩ := searchsorted_upper h value
  refine ⟨?_, us.length, hupper, ?_⟩
  · rw [hlower, hsplit, countP_of_split hxs fun y hy => (hys y hy).not_gt]
  · have hswap : sorted.countP (fun y => value < y) = (vs ++ us).countP fun y => value < y := by
      rw [hsplit']
      exact List.perm_append_comm.countP_eq _
    rw [hswap, countP_of_split hvs fun y hy => (hus y hy).not_gt, hsplit', List.length_append,
      Nat.add_sub_cancel_left]

/-! ## The sum -/

/-- The numerator: the pairs whose first element is the larger one, less those
whose first element is the smaller one. -/
def dominance (a b : List κ) : Int := (pairs (fun x y => y < x) a b : Int) - (pairs (fun x y => x < y) a b : Int)

theorem cliffsLoop_spec {bs : List κ} (h : Ascending id bs) (a : List κ) (acc : Int) :
    cliffsLoop bs a acc = some (acc + dominance a bs) := by
  induction a generalizing acc with
  | nil => rw [cliffsLoop, dominance]; simp [pairs]
  | cons x a ih =>
      obtain ⟨hless, upper, hupper, hgt⟩ := searchsorted_spec h x
      rw [cliffsLoop, hless, Option.bind_eq_bind, Option.bind_some, hupper, Option.bind_some]
      dsimp only
      rw [hgt, ih, dominance, dominance, pairs_cons, pairs_cons]
      push_cast
      exact congrArg some (by omega)

theorem dominance_perm {a a' b b' : List κ} (ha : a.Perm a') (hb : b.Perm b') : dominance a b = dominance a' b' := by
  rw [dominance, dominance, pairs_perm ha hb, pairs_perm ha hb]

theorem dominance_swap (a b : List κ) : dominance b a = -dominance a b := by
  rw [dominance, dominance, pairs_swap b a, pairs_swap b a]
  omega

theorem dominance_self (a : List κ) : dominance a a = 0 := by
  have := dominance_swap a a
  omega

theorem dominance_bounds (a b : List κ) :
    -((a.length : Int) * b.length) ≤ dominance a b ∧ dominance a b ≤ (a.length : Int) * b.length := by
  have hmore : pairs (fun x y => y < x) a b ≤ a.length * b.length := pairs_le a b
  have hless : pairs (fun x y => x < y) a b ≤ a.length * b.length := pairs_le a b
  have hcast : ((a.length * b.length : Nat) : Int) = (a.length : Int) * b.length := Int.natCast_mul _ _
  rw [dominance]
  omega

def delta (a b : List κ) : ℚ := (dominance a b : ℚ) / ((a.length : ℚ) * (b.length : ℚ))

theorem cliffsDelta_spec (h : SortsAsc sortAsc) (ha : a ≠ []) (hb : b ≠ []) :
    cliffsLoop (sortAsc b) a 0 = some (dominance a b) ∧ cliffsDelta sortAsc a b = some (delta a b) := by
  have hloop : cliffsLoop (sortAsc b) a 0 = some (dominance a b) := by
    rw [cliffsLoop_spec (h.sorted b), Int.zero_add, dominance_perm (List.Perm.refl a) (h.perm b)]
  refine ⟨hloop, ?_⟩
  rw [cliffsDelta, if_neg (by tauto)]
  dsimp only
  rw [hloop, Option.bind_eq_bind, Option.bind_some, (h.perm b).length_eq, delta]

theorem delta_bounds (ha : a ≠ []) (hb : b ≠ []) : -1 ≤ delta a b ∧ delta a b ≤ 1 := by
  have hpos : (0 : ℚ) < (a.length : ℚ) * (b.length : ℚ) := by
    have hapos := List.length_pos_of_ne_nil ha
    have hbpos := List.length_pos_of_ne_nil hb
    positivity
  obtain ⟨hlow, hhigh⟩ := dominance_bounds a b
  rw [delta, le_div_iff₀ hpos, div_le_iff₀ hpos, one_mul, neg_one_mul]
  exact ⟨by exact_mod_cast hlow, by exact_mod_cast hhigh⟩

/-- **`cliffs_delta`** is the number of pairs in one order less those in the
other, over the number of pairs; so it lies between -1 and 1, is 0 for
rearrangements, and changes its sign with the order of the samples. -/
theorem cliffsDelta_pairs {κ : Type} [LinearOrder κ] {sortAsc : List κ → List κ} (h : SortsAsc sortAsc)
    {a b : List κ} (ha : a ≠ []) (hb : b ≠ []) :
    cliffsLoop (sortAsc b) a 0
        = some ((pairs (fun x y => y < x) a b : Int) - (pairs (fun x y => x < y) a b : Int)) ∧
      cliffsDelta sortAsc a b = some (delta a b) ∧
      (-1 ≤ delta a b ∧ delta a b ≤ 1) ∧
      (a.Perm b → delta a b = 0) ∧
      cliffsDelta sortAsc b a = some (-delta a b) ∧
      (∀ value, ∃ xs ys, sortAsc b = xs ++ ys ∧ (∀ x ∈ xs, x < value) ∧ (∀ y ∈ ys, value ≤ y) ∧
        searchsorted (sortAsc b) value false = some xs.length) ∧
      (∀ value, ∃ xs ys, sortAsc b = xs ++ ys ∧ (∀ x ∈ xs, x ≤ value) ∧ (∀ y ∈ ys, value < y) ∧
        searchsorted (sortAsc b) value true = some xs.length) := by
  obtain ⟨hloop, hdelta⟩ := cliffsDelta_spec h ha hb
  refine ⟨hloop, hdelta, delta_bounds ha hb, fun hperm => ?_, ?_, fun value => searchsorted_lower (h.sorted b) value,
    fun value => searchsorted_upper (h.sorted b) value⟩
  · rw [delta, dominance_perm hperm (List.Perm.refl b), dominance_self, Int.cast_zero, zero_div]
  · rw [(cliffsDelta_spec h hb ha).2, delta, delta, dominance_swap, Int.cast_neg, neg_div, mul_comm]

end

theorem sortsAsc_mergeSort : SortsAsc (fun v : List Int => v.mergeSort (fun x y => x ≤ y)) where
  perm v := List.mergeSort_perm v _
  sorted v := by
    have hsorted := @List.pairwise_mergeSort Int (fun x y => decide (x ≤ y))
      (fun a b c hab hbc => by simp only [decide_eq_true_eq] at *; omega)
      (fun a b => by simp only [Bool.or_eq_true, decide_eq_true_eq]; omega) v
    exact hsorted.imp fun hxy => of_decide_eq_true hxy

/-- A tie and two pairs in each order. -/
theorem cliffsDelta_three : cliffsDelta (fun v : List Int => v.mergeSort (fun x y => x ≤ y)) [2, 2] [1, 2, 3]
    = some (delta [2, 2] [1, 2, 3]) :=
  (cliffsDelta_pairs sortsAsc_mergeSort (List.cons_ne_nil _ _) (List.cons_ne_nil _ _)).2.1

end Montauk.Stats
