import Mathlib.Algebra.Order.Field.Rat
import Mathlib.Algebra.Order.Floor.Ring
import Mathlib.Data.Nat.Choose.Central
import Mathlib.Data.Rat.Floor
import Mathlib.Tactic.FieldSimp
import Mathlib.Tactic.Ring
import Montauk.Machine.Combinations
import Montauk.Sort.Buffer
import Montauk.Stats.Rng

/-!
# The permutation test

`perm_test` compares the statistics of two samples with those of other splits
of the pool, in exact arithmetic. For the mean it walks all splits when there
are few of them, and else draws splits from the generator.

How many splits there are is found by a running product, `C(n, 0)`, `C(n, 1)`
and so on, which stops as soon as it is above the limit. On the way to a small
`C(n, k)` with `k` above the middle it passes larger ones, so the walk is taken
exactly when the first sample is not the longer one or the pool has at most
16 elements (`comb_le_iff`). There the result is the share of the splits that
are as far apart (`permTest_exact`).
-/

namespace Montauk.Stats

open Montauk.Enumerate Montauk.Combinations Montauk.Sort

/-! ## The statistics -/

inductive Stat where
  | mean
  | percentile
deriving DecidableEq

def total (v : List ℚ) : ℚ := v.foldl (· + ·) 0

def mean (v : List ℚ) : ℚ := if v = [] then 0 else total v / v.length

section
variable (sortAsc : List ℚ → List ℚ)

def percentile (v : List ℚ) (q : ℚ) : ℚ :=
  if v = [] then 0
  else if v.length = 1 then v.getD 0 0
  else
    let v := sortAsc v
    let rank := q / 100 * (v.length - 1 : Nat)
    let lo := ⌊rank⌋.toNat
    let frac := rank - ⌊rank⌋
    if lo + 1 < v.length then v.getD lo 0 + frac * (v.getD (lo + 1) 0 - v.getD lo 0) else v.getD lo 0

def sliceStat (pool : List ℚ) (first last : Nat) (stat : Stat) (q : ℚ) : ℚ :=
  let tmp := (pool.drop first).take (last - first)
  match stat with
  | .mean => if first < last then total tmp / (last - first : Nat) else 0
  | .percentile => percentile sortAsc tmp q

end

/-! ## The walk over the splits -/

/-- The inner `while`: the largest place below `k` whose number can go up. -/
def pivot (nB : Nat) (idx : List Nat) : Nat → Option Nat
  | 0 => none
  | k + 1 => if idx.getD k 0 = k + nB then pivot nB idx k else some k

/-- The inner `for`, with `n` turns left: each place gets the number after the
one before it. -/
def refill (j : Nat) : Nat → List Nat → List Nat
  | 0, idx => idx
  | n + 1, idx => refill (j + 1) n (idx.set j (idx.getD (j - 1) 0 + 1))

/-- The step to the next split; `none` where `more` becomes false. -/
def stepIdx (nB : Nat) (idx : List Nat) : Option (List Nat) :=
  match pivot nB idx idx.length with
  | none => none
  | some k => some (refill (k + 1) (idx.length - (k + 1)) (idx.set k (idx.getD k 0 + 1)))

/-- What the split `idx` of the pool is apart. -/
def splitDiff (pool : List ℚ) (nA nB : Nat) (idx : List Nat) : ℚ :=
  let sa := total (idx.map fun i => pool.getD i 0)
  |sa / nA - (total pool - sa) / nB|

def slack : ℚ := 1 / 10 ^ 12

/-- The body of the `while`: the counters `ge` and `seen`. -/
def exactBody (pool : List ℚ) (nA nB : Nat) (obs : ℚ) (c : Nat × Nat) (idx : List Nat) : Nat × Nat :=
  (if obs - slack ≤ splitDiff pool nA nB idx then c.1 + 1 else c.1, c.2 + 1)

/-- The running product, with `n` turns left. -/
def combLoop (nn : Nat) : Nat → Nat → ℚ → ℚ
  | 0, _, comb => comb
  | n + 1, i, comb =>
      if comb ≤ 20000 then combLoop nn n (i + 1) (comb * (nn - i : Nat) / (i + 1 : Nat)) else comb

/-! ## The shuffles -/

section
variable {σ : Type} (sortAsc : List ℚ → List ℚ) (next : σ → UInt64 × σ) (fuel : Nat)

/-- `std::swap(pool[i], pool[j])` -/
def swapAt (pool : List ℚ) (i j : Nat) : Option (List ℚ) := do
  let x ← load pool i
  let y ← load pool j
  let pool ← store pool i y
  store pool j x

/-- The shuffle, from the place `i` down. -/
def shuffle : Nat → List ℚ → σ → Option (List ℚ × σ)
  | 0, pool, g => some (pool, g)
  | i + 1, pool, g => do
      let (j, g) ← below next fuel (UInt64.ofNat (i + 2)) g
      let pool ← swapAt pool (i + 1) j.toNat
      shuffle i pool g

/-- The loop over the shuffles, with `n` turns left. -/
def shuffleLoop (na : Nat) (stat : Stat) (q obs : ℚ) : Nat → Nat → List ℚ → σ → Option (Nat × σ)
  | 0, ge, _, g => some (ge, g)
  | n + 1, ge, pool, g => do
      let (pool, g) ← shuffle next fuel (pool.length - 1) pool g
      let d := |sliceStat sortAsc pool 0 na stat q - sliceStat sortAsc pool na pool.length stat q|
      shuffleLoop na stat q obs n (if obs ≤ d then ge + 1 else ge) pool g

/-! ## The test -/

/-- `perm_test`: the p-value, and what the generator is afterwards. `fuel` is
how many turns the walk takes at most, and how often a draw is repeated. -/
def permTest (a b : List ℚ) (stat : Stat) (q : ℚ) (g : σ) (nPerm : Nat) : Option (ℚ × σ) :=
  if a = [] ∨ b = [] then some (1, g)
  else if a.length = 1 ∧ b.length = 1 then some (1, g)
  else
    let pool := a ++ b
    if stat = .mean ∧ combLoop pool.length a.length 0 1 ≤ 20000 then do
      let obs := |mean a - mean b|
      let c ← doWhile (stepIdx b.length) (exactBody pool a.length b.length obs) fuel
        (List.range a.length) (0, 0)
      some ((c.1 : ℚ) / c.2, g)
    else do
      let na := a.length
      let obs := |sliceStat sortAsc pool 0 na stat q - sliceStat sortAsc pool na pool.length stat q|
      let (ge, g) ← shuffleLoop sortAsc next fuel na stat q obs nPerm 0 pool g
      some (((ge + 1 : Nat) : ℚ) / (nPerm + 1 : Nat), g)

end

/-! ## The step is the successor -/

theorem pivot_cons (top x : Nat) (s : List Nat) (n : Nat) :
    pivot top (x :: s) (n + 1)
      = ((pivot (top + 1) s n).map Nat.succ).or (if x = top then none else some 0) := by
  induction n with
  | zero =>
      show (if x = 0 + top then none else some 0) = if x = top then none else some 0
      rw [Nat.zero_add]
  | succ n ih =>
      have hplace : n + 1 + top = n + (top + 1) := by omega
      have hleft : pivot top (x :: s) (n + 1 + 1)
          = if s.getD n 0 = n + (top + 1) then pivot top (x :: s) (n + 1) else some (n + 1) := by
        rw [← hplace]
        rfl
      rw [hleft, ih, pivot]
      by_cases hfull : s.getD n 0 = n + (top + 1)
      · rw [if_pos hfull, if_pos hfull]
      · rw [if_neg hfull, if_neg hfull]
        rfl

theorem refill_cons (j n x : Nat) (s : List Nat) : refill (j + 2) n (x :: s) = x :: refill (j + 1) n s := by
  induction n generalizing j s with
  | zero => rfl
  | succ n ih =>
      rw [refill, refill, ← ih]
      rfl

theorem refill_one (x : Nat) (s : List Nat) : refill 1 s.length (x :: s) = List.range' x (s.length + 1) := by
  induction s generalizing x with
  | nil => rfl
  | cons y s ih =>
      have hstep : refill 1 (s.length + 1) (x :: y :: s) = refill 2 s.length (x :: (x + 1) :: s) := rfl
      rw [List.length_cons, hstep, refill_cons, ih, List.range'_succ (n := s.length + 1)]

/-- **One turn of the walk** is the successor of the combination. -/
theorem stepIdx_eq_next (top : Nat) (idx : List Nat) : stepIdx top idx = next top idx := by
  induction idx generalizing top with
  | nil => rfl
  | cons x s ih =>
      rw [stepIdx, List.length_cons, pivot_cons, Combinations.next, ← ih, stepIdx]
      cases pivot (top + 1) s s.length with
      | some k =>
          have hlen : s.length + 1 - (k + 1 + 1) = s.length - (k + 1) := by omega
          show some (refill (k + 2) _ _) = some (x :: _)
          rw [hlen, List.getD_cons_succ, List.set_cons_succ, refill_cons]
      | none =>
          by_cases htop : x = top
          · rw [if_pos htop]
            exact (if_pos htop).symm
          · rw [if_neg htop]
            show some (refill 1 (s.length + 1 - 1) ((x + 1) :: s)) = if x = top then none else _
            rw [if_neg htop, Nat.add_sub_cancel, refill_one]

theorem walks_stepIdx (nA nB : Nat) : Walks (stepIdx nB) none (combos 0 nA nB) := by
  have hwalk : Walks (next (0 + nB)) none (combos 0 nA nB) := walks_combos
  rw [Nat.zero_add] at hwalk
  exact hwalk.congr fun idx _ => stepIdx_eq_next nB idx

theorem foldl_exactBody (pool : List ℚ) (nA nB : Nat) (obs : ℚ) (L : List (List Nat)) (c : Nat × Nat) :
    L.foldl (exactBody pool nA nB obs) c
      = (c.1 + L.countP (fun idx => obs - slack ≤ splitDiff pool nA nB idx), c.2 + L.length) := by
  induction L generalizing c with
  | nil => rfl
  | cons idx L ih =>
      rw [List.foldl_cons, ih, exactBody, List.countP_cons, List.length_cons]
      by_cases hhit : obs - slack ≤ splitDiff pool nA nB idx
      · rw [if_pos hhit, if_pos (decide_eq_true hhit)]
        exact Prod.ext (by omega) (by omega)
      · rw [if_neg hhit, if_neg (by rw [decide_eq_false hhit]; exact Bool.false_ne_true)]
        exact Prod.ext (by omega) (by omega)

/-! ## When the walk is taken -/

theorem combLoop_le_iff (nn n i : Nat) (hn : i + n ≤ nn) :
    combLoop nn n i (nn.choose i) ≤ 20000 ↔ ∀ j ≤ n, nn.choose (i + j) ≤ 20000 := by
  induction n generalizing i with
  | zero =>
      rw [combLoop]
      constructor
      · intro h j hj
        rw [Nat.le_zero.mp hj]
        exact_mod_cast h
      · intro h
        exact_mod_cast h 0 (Nat.le_refl 0)
  | succ n ih =>
      have hnext : ((nn.choose i : ℚ) * (nn - i : Nat) / (i + 1 : Nat)) = nn.choose (i + 1) := by
        have hpos : ((i + 1 : Nat) : ℚ) ≠ 0 := by exact_mod_cast Nat.succ_ne_zero i
        rw [div_eq_iff hpos]
        exact_mod_cast (Nat.choose_succ_right_eq nn i).symm
      rw [combLoop, hnext]
      by_cases hsmall : (nn.choose i : ℚ) ≤ 20000
      · rw [if_pos hsmall, ih (i + 1) (by omega)]
        constructor
        · intro h j hj
          cases j with
          | zero => exact_mod_cast hsmall
          | succ j =>
              rw [← Nat.add_assoc, Nat.add_right_comm]
              exact h j (Nat.le_of_succ_le_succ hj)
        · intro h j hj
          rw [Nat.add_right_comm, Nat.add_assoc]
          exact h (j + 1) (Nat.succ_le_succ hj)
      · rw [if_neg hsmall]
        refine iff_of_false hsmall fun h => hsmall ?_
        exact_mod_cast h 0 (Nat.zero_le _)

theorem choose_le_of_le_half {n i j : Nat} (hij : i ≤ j) (hj : 2 * j ≤ n) : n.choose i ≤ n.choose j := by
  induction j, hij using Nat.le_induction with
  | base => exact Nat.le_refl _
  | succ j hij ih =>
      exact (ih (by omega)).trans (Nat.choose_le_succ_of_lt_half_left (by omega))

/-- **The walk is taken** exactly when the first sample is not the longer one,
or the pool has at most 16 elements. -/
theorem comb_le_iff {na nb : Nat} (hcomb : (na + nb).choose na ≤ 20000) :
    combLoop (na + nb) na 0 1 ≤ 20000 ↔ na ≤ nb ∨ na + nb ≤ 16 := by
  have hstart : ((na + nb).choose 0 : ℚ) = 1 := by rw [Nat.choose_zero_right, Nat.cast_one]
  rw [← hstart, combLoop_le_iff _ _ _ (by omega)]
  constructor
  · intro h
    by_contra hnot
    obtain ⟨hlong, hbig⟩ : nb < na ∧ 17 ≤ na + nb := by omega
    -- on the way to the first sample's size the product passes the middle
    have hmiddle := h ((na + nb) / 2) (by omega)
    rw [Nat.zero_add] at hmiddle
    have hless : Nat.choose 17 8 ≤ (na + nb).choose 8 := Nat.choose_le_choose 8 hbig
    have hchoose : Nat.choose 17 8 = 24310 := by decide
    have hmore : (na + nb).choose 8 ≤ (na + nb).choose ((na + nb) / 2) :=
      Nat.choose_le_middle 8 _
    omega
  · rintro (hshort | hsmall) j hj
    · rw [Nat.zero_add]
      exact (choose_le_of_le_half hj (by omega)).trans hcomb
    · have hgrow : (na + nb).choose (0 + j) ≤ Nat.choose 16 (0 + j) := Nat.choose_le_choose _ hsmall
      have hmiddle : Nat.choose 16 (0 + j) ≤ Nat.choose 16 8 := Nat.choose_le_middle _ 16
      have hchoose : Nat.choose 16 8 = 12870 := by decide
      omega

/-! ## The share of the splits -/

/-- The pool's numbers at the positions of a set. -/
def sumAt (pool : List ℚ) (S : Finset Nat) : ℚ := ∑ i ∈ S, pool.getD i 0

/-- What a split is apart: the means of the positions in `S` and of the
others. -/
def apart (pool : List ℚ) (nA nB : Nat) (S : Finset Nat) : ℚ :=
  |sumAt pool S / nA - (pool.sum - sumAt pool S) / nB|

/-- The splits that are at least as far apart as the samples are. -/
def extreme (a b : List ℚ) : Finset (Finset Nat) :=
  ((Finset.range (a.length + b.length)).powersetCard a.length).filter fun S =>
    |mean a - mean b| - slack ≤ apart (a ++ b) a.length b.length S

theorem total_eq_sum (v : List ℚ) : total v = v.sum := List.sum_eq_foldl.symm

theorem splitDiff_eq_apart {pool : List ℚ} {nA nB : Nat} {idx : List Nat} (h : idx.Nodup) :
    splitDiff pool nA nB idx = apart pool nA nB idx.toFinset := by
  have hsum : total (idx.map fun i => pool.getD i 0) = sumAt pool idx.toFinset := by
    rw [total_eq_sum, sumAt, List.sum_toFinset _ h]
  rw [splitDiff, hsum, total_eq_sum, apart]

theorem countP_combos (a b : List ℚ) :
    (combos 0 a.length b.length).countP (fun idx =>
        |mean a - mean b| - slack ≤ splitDiff (a ++ b) a.length b.length idx)
      = (extreme a b).card := by
  have hcount : (combos 0 a.length b.length).countP (fun idx =>
        |mean a - mean b| - slack ≤ splitDiff (a ++ b) a.length b.length idx)
      = ((combos 0 a.length b.length).map List.toFinset).countP (fun S =>
        |mean a - mean b| - slack ≤ apart (a ++ b) a.length b.length S) := by
    rw [List.countP_map]
    refine List.countP_congr fun idx hidx => ?_
    have hnodup : idx.Nodup := (mem_combos.mp hidx).ascending.imp Nat.ne_of_lt
    rw [splitDiff_eq_apart hnodup]
    rfl
  have hset : ((combos 0 a.length b.length).map List.toFinset).toFinset
      = (Finset.range (a.length + b.length)).powersetCard a.length := by
    ext S
    rw [List.mem_toFinset, mem_map_toFinset_combos]
  rw [hcount, countP_eq_card_filter nodup_map_toFinset_combos, hset, extreme]

def share (a b : List ℚ) : ℚ := (extreme a b).card / ((a.length + b.length).choose a.length : Nat)

section
variable {σ : Type} {sortAsc : List ℚ → List ℚ} {a b : List ℚ}

theorem permTest_walk (ha : a ≠ []) (hb : b ≠ []) (hpair : ¬(a.length = 1 ∧ b.length = 1))
    (hcomb : combLoop (a.length + b.length) a.length 0 1 ≤ 20000) (next : σ → UInt64 × σ) (q : ℚ) (g : σ)
    (nPerm fuel : Nat) (hfuel : (a.length + b.length).choose a.length ≤ fuel) :
    permTest sortAsc next fuel a b .mean q g nPerm = some (share a b, g) := by
  obtain ⟨l, hl⟩ := exists_combos_cons 0 a.length b.length
  have hwalk := walks_stepIdx a.length b.length
  have hlength : l.length + 1 = (a.length + b.length).choose a.length := by
    rw [← @length_combos 0, hl, List.length_cons]
  rw [hl] at hwalk
  have hloop : doWhile (stepIdx b.length) (exactBody (a ++ b) a.length b.length |mean a - mean b|) fuel
        (List.range' 0 a.length) (0, 0)
      = some (((List.range' 0 a.length) :: l).foldl (exactBody (a ++ b) a.length b.length |mean a - mean b|) (0, 0)) :=
    doWhile_of_walks hwalk (by omega) (0, 0)
  rw [← hl, foldl_exactBody, countP_combos, length_combos, Nat.zero_add, Nat.zero_add, ← List.range_eq_range'] at hloop
  have hbranch : (Stat.mean = Stat.mean) ∧ combLoop (a ++ b).length a.length 0 1 ≤ 20000 := by
    rw [List.length_append]
    exact ⟨rfl, hcomb⟩
  rw [permTest, if_neg (by tauto), if_neg hpair]
  dsimp only
  rw [if_pos hbranch, hloop, Option.bind_eq_bind, Option.bind_some]
  rfl

end

/-! ## The other order of the samples -/

/-- Where position `i` of `a ++ b` is in `b ++ a`. -/
def rotate (na nb i : Nat) : Nat := if i < na then i + nb else i - na

theorem rotate_lt {na nb i : Nat} (hi : i < na + nb) : rotate na nb i < nb + na := by
  rw [rotate]
  split <;> omega

theorem rotate_rotate {na nb i : Nat} (hi : i < na + nb) : rotate nb na (rotate na nb i) = i := by
  rw [rotate, rotate]
  split <;> split <;> omega

theorem getD_rotate (a b : List ℚ) {i : Nat} (hi : i < a.length + b.length) :
    (b ++ a).getD (rotate a.length b.length i) 0 = (a ++ b).getD i 0 := by
  rw [rotate]
  split
  · rename_i hlt
    rw [List.getD_append_right _ _ _ _ (Nat.le_add_left _ _), Nat.add_sub_cancel, List.getD_append _ _ _ _ hlt]
  · rename_i hge
    rw [List.getD_append _ _ _ _ (by omega), List.getD_append_right _ _ _ _ (Nat.not_lt.mp hge)]

/-- The other part of a split of `a ++ b`, as positions of `b ++ a`. -/
def otherPart (na nb : Nat) (S : Finset Nat) : Finset Nat :=
  (Finset.range (nb + na)).filter fun i => rotate nb na i ∉ S

theorem mem_otherPart {na nb : Nat} {S : Finset Nat} {i : Nat} :
    i ∈ otherPart na nb S ↔ i < nb + na ∧ rotate nb na i ∉ S := by
  rw [otherPart, Finset.mem_filter, Finset.mem_range]

theorem otherPart_otherPart {na nb : Nat} {S : Finset Nat} (hS : S ⊆ Finset.range (na + nb)) :
    otherPart nb na (otherPart na nb S) = S := by
  ext i
  rw [mem_otherPart, mem_otherPart]
  constructor
  · rintro ⟨hi, hnot⟩
    by_contra hmem
    refine hnot ⟨rotate_lt hi, ?_⟩
    rwa [rotate_rotate hi]
  · intro hi
    have hlt := Finset.mem_range.mp (hS hi)
    refine ⟨hlt, fun hmem => hmem.2 ?_⟩
    rwa [rotate_rotate hlt]

theorem sum_otherPart {M : Type*} [AddCommMonoid M] {na nb : Nat} (S : Finset Nat) (f : Nat → M) :
    ∑ i ∈ otherPart na nb S, f (rotate nb na i) = ∑ i ∈ Finset.range (na + nb) \ S, f i := by
  refine Finset.sum_nbij' (rotate nb na) (rotate na nb) (fun i hi => ?_) (fun i hi => ?_) (fun i hi => ?_)
    (fun i hi => ?_) fun i _ => rfl
  · obtain ⟨hlt, hnot⟩ := mem_otherPart.mp hi
    exact Finset.mem_sdiff.mpr ⟨Finset.mem_range.mpr (rotate_lt hlt), hnot⟩
  · obtain ⟨hlt, hnot⟩ := Finset.mem_sdiff.mp hi
    have hlt := Finset.mem_range.mp hlt
    exact mem_otherPart.mpr ⟨rotate_lt hlt, by rwa [rotate_rotate hlt]⟩
  · exact rotate_rotate (mem_otherPart.mp hi).1
  · exact rotate_rotate (Finset.mem_range.mp (Finset.mem_sdiff.mp hi).1)

theorem sumAt_range (pool : List ℚ) : sumAt pool (Finset.range pool.length) = pool.sum := by
  have hrange : (List.range pool.length).toFinset = Finset.range pool.length := by
    ext i
    rw [List.mem_toFinset, List.mem_range, Finset.mem_range]
  rw [sumAt, ← hrange, List.sum_toFinset _ List.nodup_range, map_getD_range]

section
variable {a b : List ℚ} {S : Finset Nat}

theorem card_otherPart (hS : S ∈ (Finset.range (a.length + b.length)).powersetCard a.length) :
    (otherPart a.length b.length S).card = b.length := by
  obtain ⟨hsub, hcard⟩ := Finset.mem_powersetCard.mp hS
  have hones : ∑ i ∈ otherPart a.length b.length S, 1 = ∑ i ∈ Finset.range (a.length + b.length) \ S, 1 :=
    sum_otherPart S fun _ => 1
  rw [← Finset.card_eq_sum_ones, ← Finset.card_eq_sum_ones, Finset.card_sdiff_of_subset hsub, hcard, Finset.card_range,
    Nat.add_sub_cancel_left] at hones
  exact hones

theorem sumAt_otherPart (hsub : S ⊆ Finset.range (a.length + b.length)) :
    sumAt (b ++ a) (otherPart a.length b.length S) = (a ++ b).sum - sumAt (a ++ b) S := by
  have hrotate : sumAt (b ++ a) (otherPart a.length b.length S)
      = ∑ i ∈ otherPart a.length b.length S, (a ++ b).getD (rotate b.length a.length i) 0 := by
    refine Finset.sum_congr rfl fun i hi => ?_
    exact (getD_rotate b a (mem_otherPart.mp hi).1).symm
  have hall := sumAt_range (a ++ b)
  rw [List.length_append, sumAt, ← Finset.sum_sdiff hsub] at hall
  rw [hrotate, sum_otherPart S fun i => (a ++ b).getD i 0, ← hall, sumAt, add_sub_cancel_right]

theorem apart_otherPart (hsub : S ⊆ Finset.range (a.length + b.length)) :
    apart (b ++ a) b.length a.length (otherPart a.length b.length S) = apart (a ++ b) a.length b.length S := by
  have hsum : (b ++ a).sum = (a ++ b).sum := List.perm_append_comm.sum_eq
  rw [apart, apart, sumAt_otherPart hsub, hsum, sub_sub_cancel, abs_sub_comm]

theorem otherPart_mem_extreme (hS : S ∈ extreme a b) : otherPart a.length b.length S ∈ extreme b a := by
  obtain ⟨hmem, hfar⟩ := Finset.mem_filter.mp hS
  have hsub := (Finset.mem_powersetCard.mp hmem).1
  refine Finset.mem_filter.mpr ⟨Finset.mem_powersetCard.mpr ⟨Finset.filter_subset _ _, card_otherPart hmem⟩, ?_⟩
  rw [apart_otherPart hsub, abs_sub_comm]
  exact hfar

/-- **The share does not depend on the order of the samples.** -/
theorem share_comm (a b : List ℚ) : share a b = share b a := by
  have hcard : (extreme a b).card = (extreme b a).card := by
    refine Finset.card_nbij' (otherPart a.length b.length) (otherPart b.length a.length)
      (fun S hS => otherPart_mem_extreme hS) (fun S hS => otherPart_mem_extreme hS) (fun S hS => ?_) fun S hS => ?_
    · exact otherPart_otherPart (Finset.mem_powersetCard.mp (Finset.mem_filter.mp hS).1).1
    · exact otherPart_otherPart (Finset.mem_powersetCard.mp (Finset.mem_filter.mp hS).1).1
  have hchoose : (a.length + b.length).choose a.length = (b.length + a.length).choose b.length := by
    rw [Nat.choose_symm_add, Nat.add_comm]
  rw [share, share, hcard, hchoose]

theorem range_mem_extreme (ha : a ≠ []) (hb : b ≠ []) : Finset.range a.length ∈ extreme a b := by
  have hsub : Finset.range a.length ⊆ Finset.range (a.length + b.length) :=
    Finset.range_subset_range.mpr (Nat.le_add_right _ _)
  have hfirst : sumAt (a ++ b) (Finset.range a.length) = a.sum := by
    rw [← sumAt_range a]
    refine Finset.sum_congr rfl fun i hi => ?_
    exact List.getD_append _ _ _ _ (Finset.mem_range.mp hi)
  refine Finset.mem_filter.mpr ⟨Finset.mem_powersetCard.mpr ⟨hsub, Finset.card_range _⟩, ?_⟩
  have hdiff : apart (a ++ b) a.length b.length (Finset.range a.length) = |mean a - mean b| := by
    rw [apart, hfirst, List.sum_append, add_sub_cancel_left, mean, if_neg ha, mean, if_neg hb, total_eq_sum,
      total_eq_sum]
  rw [hdiff]
  exact sub_le_self _ (by unfold slack; positivity)

theorem one_le_share (ha : a ≠ []) (hb : b ≠ []) :
    (1 : ℚ) / ((a.length + b.length).choose a.length : Nat) ≤ share a b := by
  have hcard : 1 ≤ (extreme a b).card := Finset.card_pos.mpr ⟨_, range_mem_extreme ha hb⟩
  rw [share]
  have hone : (1 : ℚ) ≤ (extreme a b).card := by exact_mod_cast hcard
  gcongr

end

/-! ## Shuffles draw -/

section
variable {next : Nat → UInt64 × Nat} {fuel : Nat}

def Counting (next : Nat → UInt64 × Nat) : Prop := ∀ g, (next g).2 = g + 1

theorem belowLoop_counts (h : Counting next) {n thresh : UInt64} {m g g' : Nat} {v : UInt64}
    (hrun : belowLoop next n thresh fuel m g = some (v, g')) : g ≤ g' := by
  induction fuel generalizing m g with
  | zero =>
      rw [belowLoop] at hrun
      split at hrun
      · exact absurd hrun (Option.some_ne_none _).symm
      · exact Nat.le_of_eq (Prod.mk.inj (Option.some.inj hrun)).2
  | succ fuel ih =>
      rw [belowLoop] at hrun
      split at hrun
      · have hrest := ih hrun
        rw [h g] at hrest
        omega
      · exact Nat.le_of_eq (Prod.mk.inj (Option.some.inj hrun)).2

theorem below_counts (h : Counting next) {n : UInt64} {g g' : Nat} {v : UInt64}
    (hrun : below next fuel n g = some (v, g')) : g ≤ g' ∧ (n ≠ 0 → g < g') := by
  rw [below] at hrun
  by_cases hzero : n = 0
  · rw [if_pos hzero] at hrun
    exact ⟨Nat.le_of_eq (Prod.mk.inj (Option.some.inj hrun)).2, fun hn => absurd hzero hn⟩
  · rw [if_neg hzero] at hrun
    have hdrawn : g + 1 ≤ g' := by
      dsimp only at hrun
      rw [h g] at hrun
      split at hrun
      · exact belowLoop_counts h hrun
      · exact Nat.le_of_eq (Prod.mk.inj (Option.some.inj hrun)).2
    exact ⟨by omega, fun _ => by omega⟩

theorem shuffle_counts (h : Counting next) {i g g' : Nat} {pool pool' : List ℚ}
    (hrun : shuffle next fuel i pool g = some (pool', g')) : g ≤ g' ∧ (0 < i → g < g') := by
  induction i generalizing pool g with
  | zero => exact ⟨Nat.le_of_eq (Prod.mk.inj (Option.some.inj hrun)).2, fun hi => absurd hi (Nat.lt_irrefl 0)⟩
  | succ i ih =>
      rw [shuffle] at hrun
      obtain ⟨⟨j, g1⟩, hbelow, hrun⟩ := Option.bind_eq_some_iff.mp hrun
      obtain ⟨pool1, -, hrun⟩ := Option.bind_eq_some_iff.mp hrun
      obtain ⟨hle, hlt⟩ := below_counts h hbelow
      obtain ⟨hle', hlt'⟩ := ih hrun
      refine ⟨hle.trans hle', fun _ => ?_⟩
      -- the last draw of the shuffle is one below two
      rcases Nat.eq_zero_or_pos i with rfl | hi
      · exact Nat.lt_of_lt_of_le (hlt (by decide)) hle'
      · exact Nat.lt_of_le_of_lt hle (hlt' hi)

end

/-! ## The test on two samples -/

section
variable (sortAsc : List ℚ → List ℚ) (a b : List ℚ)

/-- Where the product stops early, the generator is used: no result of one
shuffle leaves a source as it was. -/
theorem permTest_draws {a b : List ℚ} (ha : a ≠ []) (hb : b ≠ []) (hpair : ¬(a.length = 1 ∧ b.length = 1))
    (hcomb : ¬ combLoop (a.length + b.length) a.length 0 1 ≤ 20000) {next : Nat → UInt64 × Nat}
    (h : Counting next) (q p : ℚ) (g fuel : Nat) :
    permTest sortAsc next fuel a b .mean q g 1 ≠ some (p, g) := by
  have hbranch : ¬ (Stat.mean = Stat.mean ∧ combLoop (a ++ b).length a.length 0 1 ≤ 20000) := by
    rw [List.length_append]
    exact fun hboth => hcomb hboth.2
  intro hrun
  rw [permTest, if_neg (by tauto), if_neg hpair] at hrun
  dsimp only at hrun
  rw [if_neg hbranch] at hrun
  obtain ⟨⟨ge, g1⟩, hloop, hsome⟩ := Option.bind_eq_some_iff.mp hrun
  obtain rfl : g1 = g := (Prod.mk.inj (Option.some.inj hsome)).2
  rw [shuffleLoop] at hloop
  obtain ⟨⟨pool, g2⟩, hshuffle, hend⟩ := Option.bind_eq_some_iff.mp hloop
  obtain rfl : g2 = g1 := (Prod.mk.inj (Option.some.inj hend)).2
  have hlong : 0 < (a ++ b).length - 1 := by
    have hapos := List.length_pos_of_ne_nil ha
    have hbpos := List.length_pos_of_ne_nil hb
    rw [List.length_append]
    omega
  exact absurd ((shuffle_counts h hshuffle).2 hlong) (Nat.lt_irrefl _)

/-- The test is the exact one: it walks every split once, returns the share of
those that are as far apart, and leaves the generator alone. -/
structure Exact : Prop where
  walks : ∃ vs, Walks (stepIdx b.length) none vs ∧ vs.head? = some (List.range a.length) ∧
    (vs.map List.toFinset).Nodup ∧
    ∀ S, S ∈ vs.map List.toFinset ↔ S ∈ (Finset.range (a.length + b.length)).powersetCard a.length
  result : ∀ {σ : Type} (next : σ → UInt64 × σ) (q : ℚ) (g : σ) (nPerm : Nat), ∃ fuel0, ∀ fuel ≥ fuel0,
    permTest sortAsc next fuel a b .mean q g nPerm = some (share a b, g)

/-- The test is exact, gives the same in the other order, and is never below
one split's share. -/
structure ExactBothWays : Prop where
  exact : Exact sortAsc a b
  symmetric : ∀ {σ : Type} (next : σ → UInt64 × σ) (q : ℚ) (g : σ) (nPerm : Nat), ∃ fuel0, ∀ fuel ≥ fuel0,
    permTest sortAsc next fuel a b .mean q g nPerm = permTest sortAsc next fuel b a .mean q g nPerm
  floor : (1 : ℚ) / ((a.length + b.length).choose a.length : Nat) ≤ share a b

variable {sortAsc a b}

theorem exact_of_comb (ha : a ≠ []) (hb : b ≠ []) (hpair : ¬(a.length = 1 ∧ b.length = 1))
    (hcomb : combLoop (a.length + b.length) a.length 0 1 ≤ 20000) : Exact sortAsc a b where
  walks := by
    obtain ⟨l, hl⟩ := exists_combos_cons 0 a.length b.length
    refine ⟨_, walks_stepIdx a.length b.length, ?_, nodup_map_toFinset_combos, fun S => mem_map_toFinset_combos⟩
    rw [hl, List.range_eq_range']
    rfl
  result next q g nPerm := ⟨_, fun fuel hfuel => permTest_walk ha hb hpair hcomb next q g nPerm fuel hfuel⟩

def zeros (g : Nat) : UInt64 × Nat := (0, g + 1)

theorem counting_zeros : Counting zeros := fun _ => rfl

theorem Exact.comb (h : Exact sortAsc a b) (ha : a ≠ []) (hb : b ≠ [])
    (hpair : ¬(a.length = 1 ∧ b.length = 1)) : combLoop (a.length + b.length) a.length 0 1 ≤ 20000 := by
  by_contra hcomb
  obtain ⟨fuel, hrun⟩ := h.result zeros 0 0 1
  exact permTest_draws sortAsc ha hb hpair hcomb counting_zeros 0 (share a b) 0 fuel (hrun fuel (Nat.le_refl _))

theorem Exact.swap (h : ExactBothWays sortAsc a b) (ha : a ≠ []) (hb : b ≠ [])
    (hpair : ¬(a.length = 1 ∧ b.length = 1)) : combLoop (b.length + a.length) b.length 0 1 ≤ 20000 := by
  by_contra hcomb
  obtain ⟨fuel, hrun⟩ := h.exact.result zeros 0 0 1
  obtain ⟨fuel', hsame⟩ := h.symmetric zeros 0 0 1
  refine permTest_draws sortAsc hb ha (fun hboth => hpair hboth.symm) hcomb counting_zeros 0 (share a b) 0
    (max fuel fuel') ?_
  rw [← hsame _ (Nat.le_max_right _ _)]
  exact hrun _ (Nat.le_max_left _ _)

theorem choose_comm (na nb : Nat) : (nb + na).choose nb = (na + nb).choose na := by
  rw [Nat.choose_symm_add, Nat.add_comm]

/-- **The permutation test is exact** exactly when the first sample is not the
longer one or the pool has at most 16 elements; in both orders, when the
samples are as long as each other or the pool has at most 16 elements. -/
theorem permTest_exact (sortAsc : List ℚ → List ℚ) {a b : List ℚ} (ha : a ≠ []) (hb : b ≠ [])
    (hcomb : (a.length + b.length).choose a.length ≤ 20000) (hpair : ¬(a.length = 1 ∧ b.length = 1)) :
    (Exact sortAsc a b ↔ a.length ≤ b.length ∨ a.length + b.length ≤ 16) ∧
    (ExactBothWays sortAsc a b ↔ a.length = b.length ∨ a.length + b.length ≤ 16) := by
  have hpair' : ¬(b.length = 1 ∧ a.length = 1) := fun hboth => hpair hboth.symm
  have hcomb' : (b.length + a.length).choose b.length ≤ 20000 := by rwa [choose_comm]
  refine ⟨⟨fun h => (comb_le_iff hcomb).mp (h.comb ha hb hpair),
    fun h => exact_of_comb ha hb hpair ((comb_le_iff hcomb).mpr h)⟩, fun h => ?_, fun h => ?_⟩
  · have hone := (comb_le_iff hcomb).mp (h.exact.comb ha hb hpair)
    have hother := (comb_le_iff hcomb').mp (Exact.swap h ha hb hpair)
    omega
  · have hone : combLoop (a.length + b.length) a.length 0 1 ≤ 20000 := (comb_le_iff hcomb).mpr (by omega)
    have hother : combLoop (b.length + a.length) b.length 0 1 ≤ 20000 := (comb_le_iff hcomb').mpr (by omega)
    refine ⟨exact_of_comb ha hb hpair hone, fun next q g nPerm => ?_, one_le_share ha hb⟩
    refine ⟨(a.length + b.length).choose a.length, fun fuel hfuel => ?_⟩
    rw [permTest_walk ha hb hpair hone next q g nPerm fuel hfuel,
      permTest_walk hb ha hpair' hother next q g nPerm fuel (by rwa [choose_comm]), share_comm]

/-- Two against two: six splits. -/
theorem permTest_exact_two :
    (Exact id [1, 2] [3, 4] ↔ 2 ≤ 2 ∨ 2 + 2 ≤ 16) ∧ (ExactBothWays id [1, 2] [3, 4] ↔ 2 = 2 ∨ 2 + 2 ≤ 16) :=
  permTest_exact id (List.cons_ne_nil _ _) (List.cons_ne_nil _ _) (by decide) (by decide)

/-- Twenty against one: there are 21 splits, and the generator is used. -/
theorem not_exact_twenty :
    ¬ ∀ a b : List ℚ, a ≠ [] → b ≠ [] → (a.length + b.length).choose a.length ≤ 20000 →
      ¬(a.length = 1 ∧ b.length = 1) → ExactBothWays id a b := by
  intro h
  have hne : List.replicate 20 (0 : ℚ) ≠ [] := List.cons_ne_nil _ _
  have hlen : (List.replicate 20 (0 : ℚ)).length = 20 := List.length_replicate
  have hchoose : ((List.replicate 20 (0 : ℚ)).length + [(1 : ℚ)].length).choose (List.replicate 20 (0 : ℚ)).length
      ≤ 20000 := by
    rw [hlen]
    decide
  have hpair : ¬((List.replicate 20 (0 : ℚ)).length = 1 ∧ [(1 : ℚ)].length = 1) := by
    rw [hlen]
    decide
  have hboth := h _ [1] hne (List.cons_ne_nil _ _) hchoose hpair
  have hcomb := (comb_le_iff hchoose).mp (hboth.exact.comb hne (List.cons_ne_nil _ _) hpair)
  rw [hlen, List.length_singleton] at hcomb
  omega

end

end Montauk.Stats
