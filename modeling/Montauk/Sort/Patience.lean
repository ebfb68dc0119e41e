import Montauk.Machine.Subsequence

/-!
# Patience sorting

`patience_sort_lis_full` deals the elements onto piles, each onto the first
pile whose top is not below it. The pile of an element is the length of the
longest strictly increasing subsequence that ends at it (`Dealt`), so the
number of piles is the length of a longest one. The largest pile is reported as
the length of a longest non-increasing subsequence, which it is exactly if such
a one lies in a pile (`patienceSortWithTableau_iff`).
-/

namespace Montauk.Sort

open Subsequence

section

variable {α : Type} [LT α] [DecidableLT α]

/-- `while (lo < hi)`: the first pile whose top is not below `val`. -/
def pileSearch (pileTops : List α) (val : α) : Nat → Nat → Nat → Option Nat
  | 0, _, _ => none
  | fuel + 1, lo, hi =>
      if lo < hi then do
        let mid := lo + (hi - lo) / 2
        let top ← pileTops[mid]?
        if top < val then pileSearch pileTops val fuel (mid + 1) hi
        else pileSearch pileTops val fuel lo mid
      else some lo

/-- The piles; `pileTops` are the cells that have been written, of which there
are `num_piles`. -/
structure Piles (α : Type) where
  pileTops : List α
  pileSizes : List Nat
  maxPile : Nat

def placeOnPile (st : Piles α) (val : α) : Option (Piles α) := do
  let numPiles := st.pileTops.length
  let lo ← pileSearch st.pileTops val (numPiles + 1) 0 numPiles
  let size ← st.pileSizes[lo]?
  some {
    pileTops := if lo = numPiles then st.pileTops ++ [val] else st.pileTops.set lo val
    pileSizes := st.pileSizes.set lo (size + 1)
    maxPile := if st.maxPile < size + 1 then size + 1 else st.maxPile }

/-- `patience_sort_lis_full`, with its allocations: the number of piles, their
sizes and the largest. -/
def patienceSortLisFull (arr : List α) : Option (Nat × List Nat × Nat) :=
  if arr.length ≤ 1 then some (arr.length, List.replicate arr.length 1, arr.length)
  else do
    let st ← arr.foldlM placeOnPile ⟨[], List.replicate arr.length 0, 0⟩
    some (st.pileTops.length, st.pileSizes.take st.pileTops.length, st.maxPile)

/-- The fields of `sub_profile_t` that the piles decide. -/
structure TableauProfile where
  lisLength : Nat
  ldsLength : Nat

/-- `patience_sort_with_tableau`, with its allocation. -/
def patienceSortWithTableau (arr : List α) : Option TableauProfile := do
  let (numPiles, _, maxPile) ← patienceSortLisFull arr
  some ⟨numPiles, maxPile⟩

end

/-! ## One pile -/

section

variable {α : Type}

theorem length_level_concat (k : Nat) (r : List (α × Nat)) (p : α × Nat) :
    (level k (r ++ [p])).length = (level k r).length + if p.2 = k then 1 else 0 := by
  rw [level, List.filter_append, List.length_append, ← level, List.filter_singleton]
  congr 1
  by_cases hk : p.2 = k
  · rw [if_pos hk, beq_iff_eq.mpr hk]
    rfl
  · rw [if_neg hk, beq_eq_false_iff_ne.mpr hk]
    rfl

theorem getElem?_tops {tops : List α} {m : Nat} (val : α) (hm : m ≤ tops.length) (k : Nat) :
    (if m = tops.length then tops ++ [val] else tops.set m val)[k]?
      = if k = m then some val else tops[k]? := by
  by_cases hlen : m = tops.length
  · rw [if_pos hlen, hlen]
    by_cases hk : k = tops.length
    · rw [if_pos hk, hk, List.getElem?_concat_length]
    · rw [if_neg hk]
      by_cases hlt : k < tops.length
      · rw [List.getElem?_append_left hlt]
      · rw [List.getElem?_eq_none (by rw [List.length_append, List.length_singleton]; omega),
          List.getElem?_eq_none (by omega)]
  · rw [if_neg hlen]
    by_cases hk : k = m
    · rw [if_pos hk, hk, List.getElem?_set_self (by omega)]
    · rw [if_neg hk, List.getElem?_set_ne (Ne.symm hk)]

end

variable {α : Type} [LinearOrder α] {r : List (α × Nat)} {st : Piles α}

theorem length_level_rising {m : Nat} (hm : 1 ≤ m) {rest : List α} (hrising : rest.Pairwise (· < ·))
    (habove : ∀ p ∈ r, ∀ v ∈ rest, p.1 < v) (hfew : ∀ k, (level k r).length ≤ m) :
    ∀ k, (level k (rankedFrom r rest)).length ≤ m := by
  induction rest generalizing r with
  | nil => exact hfew
  | cons v rest ih =>
      obtain ⟨hv, hrising⟩ := List.pairwise_cons.mp hrising
      refine ih hrising (fun p hp u hu => ?_) fun k => ?_
      · rcases List.mem_append.mp hp with hp | hp
        · exact habove p hp u (List.mem_cons_of_mem _ hu)
        · rw [List.mem_singleton.mp hp]
          exact hv u hu
      · rw [length_level_concat]
        split
        · rename_i hk
          have hnone : level k r = [] := by
            refine List.filter_eq_nil_iff.mpr fun p hp hrank => ?_
            have hle := le_rankBelow hp (habove p hp v List.mem_cons_self)
            have := beq_iff_eq.mp hrank
            dsimp only at hk
            omega
          rw [hnone]
          exact hm
        · exact hfew k

theorem pairwise_tops {tops : List α} {m : Nat} {val : α} (hinc : tops.Pairwise (· < ·))
    (hm : m ≤ tops.length) (hbelow : ∀ k t, k < m → tops[k]? = some t → t < val)
    (habove : ∀ k t, m ≤ k → tops[k]? = some t → val ≤ t) :
    (if m = tops.length then tops ++ [val] else tops.set m val).Pairwise (· < ·) := by
  rw [List.pairwise_iff_getElem]
  intro i j hi hj hij
  have hgi := List.getElem?_eq_getElem hi
  have hgj := List.getElem?_eq_getElem hj
  rw [getElem?_tops val hm] at hgi hgj
  have hold : ∀ t u, tops[i]? = some t → tops[j]? = some u → t < u := by
    intro t u ht hu
    obtain ⟨hi', rfl⟩ := List.getElem?_eq_some_iff.mp ht
    obtain ⟨hj', rfl⟩ := List.getElem?_eq_some_iff.mp hu
    exact List.pairwise_iff_getElem.mp hinc i j hi' hj' hij
  by_cases him : i = m
  · rw [if_pos him, Option.some_inj] at hgi
    rw [if_neg (by omega)] at hgj
    obtain ⟨t, ht⟩ : ∃ t, tops[i]? = some t := by
      have := (List.getElem?_eq_some_iff.mp hgj).1
      exact ⟨_, List.getElem?_eq_getElem (by omega)⟩
    rw [← hgi]
    exact lt_of_le_of_lt (habove i t (by omega) ht) (hold t _ ht hgj)
  · rw [if_neg him] at hgi
    by_cases hjm : j = m
    · rw [if_pos hjm, Option.some_inj] at hgj
      rw [← hgj]
      exact hbelow i _ (by omega) hgi
    · rw [if_neg hjm] at hgj
      exact hold _ _ hgi hgj

/-! ## The search for the pile -/

theorem pileSearch_spec {tops : List α} (val : α) (hinc : tops.Pairwise (· < ·)) :
    ∀ fuel lo hi : Nat, lo ≤ hi → hi ≤ tops.length → hi - lo < fuel →
    (∀ k t, k < lo → tops[k]? = some t → t < val) →
    (∀ k t, hi ≤ k → tops[k]? = some t → val ≤ t) →
    ∃ m, pileSearch tops val fuel lo hi = some m ∧ m ≤ tops.length ∧
      (∀ k t, k < m → tops[k]? = some t → t < val) ∧ ∀ k t, m ≤ k → tops[k]? = some t → val ≤ t := by
  intro fuel
  induction fuel with
  | zero => exact fun lo hi _ _ hfuel => absurd hfuel (Nat.not_lt_zero _)
  | succ fuel ih =>
      intro lo hi hle hhi hfuel hbelow habove
      rw [pileSearch]
      by_cases hlt : lo < hi
      · have hmid : lo + (hi - lo) / 2 < hi := by omega
        obtain ⟨top, htop⟩ : ∃ top, tops[lo + (hi - lo) / 2]? = some top :=
          ⟨_, List.getElem?_eq_getElem (by omega)⟩
        have hordered : ∀ (j k : Nat) (t u : α), j ≤ k → tops[j]? = some t → tops[k]? = some u → t ≤ u := by
          intro j k t u hjk ht hu
          rcases Nat.eq_or_lt_of_le hjk with rfl | hjk
          · exact le_of_eq (Option.some.inj (ht.symm.trans hu))
          · obtain ⟨hj, rfl⟩ := List.getElem?_eq_some_iff.mp ht
            obtain ⟨hk, rfl⟩ := List.getElem?_eq_some_iff.mp hu
            exact le_of_lt (List.pairwise_iff_getElem.mp hinc j k hj hk hjk)
        rw [if_pos hlt]
        dsimp only
        rw [htop, Option.bind_eq_bind, Option.bind_some]
        by_cases hval : top < val
        · rw [if_pos hval]
          refine ih _ _ (by omega) hhi (by omega) (fun k t hk ht => ?_) habove
          exact lt_of_le_of_lt (hordered k _ t top (by omega) ht htop) hval
        · rw [if_neg hval]
          refine ih _ _ (by omega) (by omega) (by omega) hbelow fun k t hk ht => ?_
          exact le_trans (le_of_not_gt hval) (hordered _ k top t hk htop ht)
      · rw [if_neg hlt]
        obtain rfl : lo = hi := by omega
        exact ⟨lo, rfl, hhi, hbelow, habove⟩

/-! ## The piles -/

/-- The piles of the elements with ranks `r`, with room for `n`. -/
structure Dealt (n : Nat) (r : List (α × Nat)) (st : Piles α) : Prop where
  inc : st.pileTops.Pairwise (· < ·)
  top_mem : ∀ k t, st.pileTops[k]? = some t → (t, k + 1) ∈ r
  top_le : ∀ p ∈ r, ∃ k t, p.2 = k + 1 ∧ st.pileTops[k]? = some t ∧ t ≤ p.1
  few : st.pileTops.length ≤ r.length
  room : st.pileSizes.length = n
  sizes : ∀ k size, st.pileSizes[k]? = some size → size = (level (k + 1) r).length
  most : ∀ k, (level k r).length ≤ st.maxPile
  reached : ∃ k, (level k r).length = st.maxPile

theorem dealt_start (n : Nat) : Dealt n ([] : List (α × Nat)) ⟨[], List.replicate n 0, 0⟩ where
  inc := List.Pairwise.nil
  top_mem _ _ h := absurd h nofun
  top_le _ h := absurd h List.not_mem_nil
  few := Nat.le_refl 0
  room := List.length_replicate
  sizes _ _ h := (List.eq_of_mem_replicate (List.mem_of_getElem? h)).trans rfl
  most _ := Nat.le_refl 0
  reached := ⟨0, rfl⟩

theorem Dealt.rankBelow_eq {n m : Nat} {val : α} (h : Dealt n r st) (hm : m ≤ st.pileTops.length)
    (hbelow : ∀ k t, k < m → st.pileTops[k]? = some t → t < val)
    (habove : ∀ k t, m ≤ k → st.pileTops[k]? = some t → val ≤ t) : rankBelow val r = m := by
  apply Nat.le_antisymm
  · by_contra hgt
    obtain ⟨p, hp, hlt, hrank⟩ := exists_rankBelow (v := val) (r := r) (by omega)
    obtain ⟨k, t, hk, ht, hle⟩ := h.top_le p hp
    exact absurd (habove k t (by omega) ht) (not_le_of_gt (lt_of_le_of_lt hle hlt))
  · cases m with
    | zero => exact Nat.zero_le _
    | succ m =>
        obtain ⟨t, ht⟩ : ∃ t, st.pileTops[m]? = some t := ⟨_, List.getElem?_eq_getElem (by omega)⟩
        exact le_rankBelow (h.top_mem m t ht) (hbelow m t (Nat.lt_succ_self m) ht)

theorem Dealt.place {n : Nat} (h : Dealt n r st) (hroom : r.length < n) (val : α) :
    ∃ st', placeOnPile st val = some st' ∧ Dealt n (r ++ [(val, rankBelow val r + 1)]) st' := by
  obtain ⟨m, hsearch, hm, hbelow, habove⟩ := pileSearch_spec val h.inc
    (st.pileTops.length + 1) 0 st.pileTops.length (Nat.zero_le _) (Nat.le_refl _) (by omega)
    (fun k t hk => absurd hk (Nat.not_lt_zero k)) fun k t hk ht => by
      have := (List.getElem?_eq_some_iff.mp ht).1
      omega
  have hrank := h.rankBelow_eq hm hbelow habove
  have hfew := h.few
  obtain ⟨size, hsize⟩ : ∃ size, st.pileSizes[m]? = some size :=
    ⟨_, List.getElem?_eq_getElem (by rw [h.room]; omega)⟩
  have hcount := h.sizes m size hsize
  have hold := h.most (m + 1)
  refine ⟨_, by rw [placeOnPile, hsearch, Option.bind_eq_bind, Option.bind_some, hsize, Option.bind_some], ?_⟩
  rw [hrank]
  have htops := getElem?_tops val hm
  constructor
  · exact pairwise_tops h.inc hm hbelow habove
  · intro k t ht
    rw [htops] at ht
    by_cases hk : k = m
    · rw [if_pos hk, Option.some_inj] at ht
      rw [hk, ht]
      exact List.mem_append_right _ (List.mem_singleton_self _)
    · rw [if_neg hk] at ht
      exact List.mem_append_left _ (h.top_mem k t ht)
  · intro p hp
    rcases List.mem_append.mp hp with hp | hp
    · obtain ⟨k, t, hk, ht, hle⟩ := h.top_le p hp
      by_cases hkm : k = m
      · refine ⟨k, val, hk, by rw [htops, if_pos hkm], le_trans (habove k t (by omega) ht) hle⟩
      · exact ⟨k, t, hk, by rw [htops, if_neg hkm, ht], hle⟩
    · obtain rfl := List.mem_singleton.mp hp
      exact ⟨m, val, rfl, by rw [htops, if_pos rfl], le_refl val⟩
  · rw [List.length_append, List.length_singleton]
    dsimp only
    split
    · rw [List.length_append, List.length_singleton]
      omega
    · rw [List.length_set]
      omega
  · rw [List.length_set, h.room]
  · intro k size' hk
    rw [length_level_concat]
    by_cases hkm : k = m
    · subst hkm
      rw [List.getElem?_set_self (by rw [h.room]; omega), Option.some_inj] at hk
      rw [if_pos rfl, ← hk, hcount]
    · rw [List.getElem?_set_ne (Ne.symm hkm)] at hk
      rw [if_neg (by dsimp only; omega), h.sizes k size' hk]
      rfl
  · intro k
    have hk := h.most k
    rw [length_level_concat]
    dsimp only
    split
    · rename_i heq
      rw [← heq, ← hcount]
      split <;> omega
    · split <;> omega
  · obtain ⟨k, hk⟩ := h.reached
    dsimp only
    by_cases hmax : st.maxPile < size + 1
    · refine ⟨m + 1, ?_⟩
      rw [length_level_concat, if_pos hmax, if_pos rfl, hcount]
    · refine ⟨k, ?_⟩
      rw [length_level_concat, if_neg hmax, if_neg, hk]
      · rfl
      · rintro rfl
        dsimp only at hk
        omega

theorem Dealt.run {n : Nat} (h : Dealt n r st) {rest : List α} (hroom : r.length + rest.length = n) :
    ∃ st', rest.foldlM placeOnPile st = some st' ∧ Dealt n (rankedFrom r rest) st' := by
  induction rest generalizing r st with
  | nil => exact ⟨st, rfl, h⟩
  | cons val rest ih =>
      rw [List.length_cons] at hroom
      obtain ⟨st₁, hplace, h₁⟩ := h.place (by omega) val
      obtain ⟨st', hrun, h'⟩ := ih h₁ (by rw [List.length_append, List.length_singleton]; omega)
      exact ⟨st', by rw [List.foldlM_cons, hplace, Option.bind_eq_bind, Option.bind_some, hrun], h'⟩

/-! ## The profile -/

theorem patienceSortWithTableau_short {arr : List α} (h : arr.length ≤ 1) :
    patienceSortWithTableau arr = some ⟨arr.length, arr.length⟩ := by
  rw [patienceSortWithTableau, patienceSortLisFull, if_pos h]
  rfl

theorem patienceSortWithTableau_dealt {arr : List α} (h : ¬ arr.length ≤ 1) :
    ∃ st : Piles α, Dealt arr.length (ranked arr) st ∧
      patienceSortWithTableau arr = some ⟨st.pileTops.length, st.maxPile⟩ := by
  obtain ⟨st, hrun, hst⟩ := (dealt_start (α := α) arr.length).run (Nat.zero_add arr.length)
  refine ⟨st, hst, ?_⟩
  rw [patienceSortWithTableau, patienceSortLisFull, if_neg h, hrun]
  rfl

theorem patienceSortWithTableau_returns (arr : List α) : ∃ p, patienceSortWithTableau arr = some p := by
  by_cases hshort : arr.length ≤ 1
  · exact ⟨_, patienceSortWithTableau_short hshort⟩
  · obtain ⟨st, -, hrun⟩ := patienceSortWithTableau_dealt hshort
    exact ⟨_, hrun⟩

theorem Dealt.longest_lt {xs : List α} {n : Nat} (h : Dealt n (ranked xs) st) :
    Longest (· < ·) xs st.pileTops.length := by
  refine Subsequence.longest_lt (fun p hp => ?_) fun hpos => ?_
  · obtain ⟨k, t, hk, ht, -⟩ := h.top_le p hp
    have := (List.getElem?_eq_some_iff.mp ht).1
    omega
  · obtain ⟨t, ht⟩ : ∃ t, st.pileTops[st.pileTops.length - 1]? = some t :=
      ⟨_, List.getElem?_eq_getElem (by omega)⟩
    refine ⟨_, h.top_mem _ t ht, ?_⟩
    exact Nat.sub_add_cancel hpos

theorem oneLevel_short {xs : List α} (h : xs.length ≤ 1) : OneLevel xs := by
  have hlong := longest_short h (fun x y : α => y ≤ x)
  cases xs with
  | nil => exact ⟨[], 0, List.nil_sublist _, fun p hp => absurd hp List.not_mem_nil, hlong⟩
  | cons x xs =>
      obtain rfl : xs = [] := List.length_eq_zero_iff.mp (by rw [List.length_cons] at h; omega)
      refine ⟨[(x, 1)], 1, List.Sublist.refl _, fun p hp => ?_, hlong⟩
      rw [List.mem_singleton.mp hp]

/-- For every array the patience pass reports the length of a longest strictly
increasing subsequence. The largest pile is the length of a longest subsequence
that does not increase exactly if one of these has all its elements in one
pile, that is, if the longest increasing subsequences that end at them are all
of the same length. -/
theorem patienceSortWithTableau_iff (arr : List α) :
    ∃ p, patienceSortWithTableau arr = some p ∧ Longest (· < ·) arr p.lisLength ∧
      (Longest (fun x y => y ≤ x) arr p.ldsLength ↔ OneLevel arr) := by
  by_cases hshort : arr.length ≤ 1
  · exact ⟨_, patienceSortWithTableau_short hshort, longest_short hshort _,
      iff_of_true (longest_short hshort _) (oneLevel_short hshort)⟩
  · obtain ⟨st, h, hrun⟩ := patienceSortWithTableau_dealt hshort
    exact ⟨_, hrun, h.longest_lt, longest_ge_iff h.most h.reached⟩

end Montauk.Sort
