import Mathlib.Data.List.Basic
import Mathlib.Order.Basic
import Mathlib.Order.Lattice
import Mathlib.Data.List.Nodup
import Mathlib.Data.List.Perm.Subperm

/-!
# Longest subsequences

The rank of an element is the length of the longest strictly increasing
subsequence that ends at it, computed from the ranks in front of it
(`ranked`). Ranks grow along a strictly increasing subsequence, so the highest
rank is the length of a longest one (`Ranked.longest_lt`), and elements of one
rank do not increase (`Ranked.level`).
-/

namespace Montauk.Subsequence

variable {α : Type}

/-- `k` is the length of a longest subsequence of `xs` with `R` from each
element to all behind it. -/
structure Longest (R : α → α → Prop) (xs : List α) (k : Nat) : Prop where
  reached : ∃ s : List α, s.Sublist xs ∧ s.Pairwise R ∧ s.length = k
  most : ∀ s : List α, s.Sublist xs → s.Pairwise R → s.length ≤ k

theorem longest_short {xs : List α} (h : xs.length ≤ 1) (R : α → α → Prop) :
    Longest R xs xs.length := by
  refine ⟨⟨xs, List.Sublist.refl xs, ?_, rfl⟩, fun s hs _ => hs.length_le⟩
  cases xs with
  | nil => exact List.Pairwise.nil
  | cons x xs =>
      obtain rfl : xs = [] := List.length_eq_zero_iff.mp (by rw [List.length_cons] at h; omega)
      exact List.pairwise_singleton R x

/-- The elements at rank `k`. -/
def level (k : Nat) (r : List (α × Nat)) : List (α × Nat) := r.filter fun p => p.2 == k

variable {r : List (α × Nat)} {p : α × Nat} {k : Nat}

theorem mem_level : p ∈ level k r ↔ p ∈ r ∧ p.2 = k := by
  rw [level, List.mem_filter, beq_iff_eq]

theorem level_sublist : (level k r).Sublist r := List.filter_sublist

variable [LinearOrder α]

/-- The highest rank of an element below `v`. -/
def rankBelow (v : α) : List (α × Nat) → Nat
  | [] => 0
  | p :: r => if p.1 < v then max p.2 (rankBelow v r) else rankBelow v r

/-- The elements `rest` behind the ranked ones `r`, with their ranks. -/
def rankedFrom : List (α × Nat) → List α → List (α × Nat)
  | r, [] => r
  | r, v :: rest => rankedFrom (r ++ [(v, rankBelow v r + 1)]) rest

def ranked (xs : List α) : List (α × Nat) := rankedFrom [] xs

/-- Some longest subsequence that does not increase has all its elements at
one rank. -/
def OneLevel (xs : List α) : Prop :=
  ∃ (s : List (α × Nat)) (k : Nat), s.Sublist (ranked xs) ∧ (∀ p ∈ s, p.2 = k) ∧ Longest (fun x y => y ≤ x) xs s.length

variable {v : α} {xs : List α}

/-! ## Ranks -/

theorem le_rankBelow (hp : p ∈ r) (hv : p.1 < v) : p.2 ≤ rankBelow v r := by
  induction r with
  | nil => exact absurd hp List.not_mem_nil
  | cons q r ih =>
      rw [rankBelow]
      rcases List.mem_cons.mp hp with rfl | hp
      · rw [if_pos hv]
        exact le_max_left _ _
      · split
        · exact le_trans (ih hp) (le_max_right _ _)
        · exact ih hp

theorem exists_rankBelow (h : 0 < rankBelow v r) : ∃ p ∈ r, p.1 < v ∧ p.2 = rankBelow v r := by
  induction r with
  | nil => exact absurd h (Nat.lt_irrefl 0)
  | cons q r ih =>
      rw [rankBelow] at h ⊢
      by_cases hq : q.1 < v
      · rw [if_pos hq] at h ⊢
        rcases le_total q.2 (rankBelow v r) with hle | hle
        · rw [max_eq_right hle] at h ⊢
          obtain ⟨p, hp, hlt, heq⟩ := ih h
          exact ⟨p, List.mem_cons_of_mem q hp, hlt, heq⟩
        · rw [max_eq_left hle]
          exact ⟨q, List.mem_cons_self, hq, rfl⟩
      · rw [if_neg hq] at h ⊢
        obtain ⟨p, hp, hlt, heq⟩ := ih h
        exact ⟨p, List.mem_cons_of_mem q hp, hlt, heq⟩

structure Ranked (r : List (α × Nat)) : Prop where
  up : r.Pairwise fun p q => p.1 < q.1 → p.2 < q.2
  chain : ∀ i p, r[i]? = some p → ∃ s : List α, s.Sublist ((r.take i).map Prod.fst) ∧
    (s ++ [p.1]).Pairwise (· < ·) ∧ s.length + 1 = p.2

theorem ranked_nil : Ranked ([] : List (α × Nat)) where
  up := List.Pairwise.nil
  chain _ _ h := absurd h nofun

theorem Ranked.concat (h : Ranked r) (v : α) : Ranked (r ++ [(v, rankBelow v r + 1)]) := by
  constructor
  · rw [List.pairwise_append]
    refine ⟨h.up, List.pairwise_singleton _ _, fun p hp q hq hlt => ?_⟩
    obtain rfl := List.mem_singleton.mp hq
    exact Nat.lt_succ_of_le (le_rankBelow hp hlt)
  · intro i p hp
    by_cases hi : i < r.length
    · rw [List.getElem?_append_left hi] at hp
      rw [List.take_append_of_le_length (Nat.le_of_lt hi)]
      exact h.chain i p hp
    · have hlen := (List.getElem?_eq_some_iff.mp hp).1
      rw [List.length_append, List.length_singleton] at hlen
      obtain rfl : i = r.length := by omega
      rw [List.getElem?_concat_length, Option.some_inj] at hp
      subst hp
      rw [List.take_left]
      rcases Nat.eq_zero_or_pos (rankBelow v r) with hzero | hpos
      · refine ⟨[], List.nil_sublist _, List.pairwise_singleton _ _, ?_⟩
        rw [hzero]
        rfl
      · -- behind a longest one that ends below `v`
        obtain ⟨q, hq, hlt, hrank⟩ := exists_rankBelow hpos
        obtain ⟨j, hj⟩ := List.mem_iff_getElem?.mp hq
        obtain ⟨s, hs, hinc, hlen⟩ := h.chain j q hj
        refine ⟨s ++ [q.1], ?_, ?_, ?_⟩
        · have hnext : (r.take (j + 1)).map Prod.fst = (r.take j).map Prod.fst ++ [q.1] := by
            rw [List.take_add_one, hj, Option.toList_some, List.map_append, List.map_singleton]
          refine List.Sublist.trans ?_ ((List.take_sublist (j + 1) r).map Prod.fst)
          rw [hnext]
          exact hs.append (List.Sublist.refl _)
        · rw [List.pairwise_append]
          refine ⟨hinc, List.pairwise_singleton _ _, fun x hx y hy => ?_⟩
          obtain rfl := List.mem_singleton.mp hy
          rcases List.mem_append.mp hx with hxs | hxq
          · have hxlt := (List.pairwise_append.mp hinc).2.2 x hxs q.1 (List.mem_singleton_self _)
            exact lt_trans hxlt hlt
          · rw [List.mem_singleton.mp hxq]
            exact hlt
        · rw [List.length_append, List.length_singleton, hlen, hrank]

theorem Ranked.rankedFrom (h : Ranked r) (rest : List α) : Ranked (rankedFrom r rest) := by
  induction rest generalizing r with
  | nil => exact h
  | cons v rest ih => exact ih (h.concat v)

theorem map_fst_rankedFrom (r : List (α × Nat)) (rest : List α) :
    (rankedFrom r rest).map Prod.fst = r.map Prod.fst ++ rest := by
  induction rest generalizing r with
  | nil => exact (List.append_nil _).symm
  | cons v rest ih =>
      rw [Subsequence.rankedFrom, ih, List.map_append, List.append_assoc]
      rfl

theorem rankedFrom_append (r : List (α × Nat)) (xs ys : List α) :
    rankedFrom r (xs ++ ys) = rankedFrom (rankedFrom r xs) ys := by
  induction xs generalizing r with
  | nil => rfl
  | cons x xs ih => exact ih _

theorem ranked_ranked (xs : List α) : Ranked (ranked xs) := ranked_nil.rankedFrom xs

theorem map_fst_ranked (xs : List α) : (ranked xs).map Prod.fst = xs := map_fst_rankedFrom [] xs

/-! ## Subsequences -/

theorem Ranked.pos (h : Ranked r) (hp : p ∈ r) : 0 < p.2 := by
  obtain ⟨i, hi⟩ := List.mem_iff_getElem?.mp hp
  obtain ⟨s, -, -, hlen⟩ := h.chain i p hi
  rw [← hlen]
  exact Nat.succ_pos _

/-- Ranks up to `k` leave room for `k` elements of an increasing subsequence. -/
theorem Ranked.length_le (h : Ranked r) {s : List (α × Nat)} (hs : s.Sublist r)
    (hinc : (s.map Prod.fst).Pairwise (· < ·)) (hk : ∀ p ∈ s, p.2 ≤ k) : s.length ≤ k := by
  have hranks : (s.map Prod.snd).Pairwise (· < ·) := by
    rw [List.pairwise_map] at hinc ⊢
    exact ((h.up.sublist hs).and hinc).imp fun hboth => hboth.1 hboth.2
  have hnodup : (s.map Prod.snd).Nodup := hranks.imp fun hlt => Nat.ne_of_lt hlt
  have hsub : s.map Prod.snd ⊆ List.range' 1 k := by
    intro l hl
    obtain ⟨p, hp, rfl⟩ := List.mem_map.mp hl
    rw [List.mem_range'_1]
    exact ⟨h.pos (hs.subset hp), by have := hk p hp; omega⟩
  have hlen := (List.subperm_of_subset hnodup hsub).length_le
  rwa [List.length_map, List.length_range'] at hlen

/-- The highest rank is the length of a longest strictly increasing
subsequence. -/
theorem longest_lt (hmost : ∀ p ∈ ranked xs, p.2 ≤ k) (hreached : 0 < k → ∃ p ∈ ranked xs, p.2 = k) :
    Longest (· < ·) xs k := by
  have h := ranked_ranked xs
  constructor
  · rcases Nat.eq_zero_or_pos k with rfl | hpos
    · exact ⟨[], List.nil_sublist xs, List.Pairwise.nil, rfl⟩
    · obtain ⟨p, hp, rfl⟩ := hreached hpos
      obtain ⟨i, hi⟩ := List.mem_iff_getElem?.mp hp
      obtain ⟨s, hs, hinc, hlen⟩ := h.chain i p hi
      refine ⟨s ++ [p.1], ?_, hinc, ?_⟩
      · have hnext : ((ranked xs).take (i + 1)).map Prod.fst
            = ((ranked xs).take i).map Prod.fst ++ [p.1] := by
          rw [List.take_add_one, hi, Option.toList_some, List.map_append, List.map_singleton]
        have hsub := (List.take_sublist (i + 1) (ranked xs)).map Prod.fst
        rw [map_fst_ranked, hnext] at hsub
        exact (hs.append (List.Sublist.refl _)).trans hsub
      · rw [List.length_append, List.length_singleton, hlen]
  · intro s hs hinc
    rw [← map_fst_ranked xs] at hs
    obtain ⟨s', hs', rfl⟩ := List.sublist_map_iff.mp hs
    rw [List.length_map]
    exact h.length_le hs' hinc fun p hp => hmost p (hs'.subset hp)

theorem Ranked.level_pairwise (h : Ranked r) (k : Nat) :
    ((level k r).map Prod.fst).Pairwise fun x y => y ≤ x := by
  rw [List.pairwise_map]
  refine (h.up.sublist level_sublist).imp_of_mem fun hp hq hlt => ?_
  by_contra hgt
  have hup := hlt (lt_of_not_ge hgt)
  rw [(mem_level.mp hp).2, (mem_level.mp hq).2] at hup
  exact Nat.lt_irrefl k hup

/-- The largest level is as long as a longest subsequence that does not
increase exactly if such a one lies in a level. -/
theorem longest_ge_iff {m : Nat} (hmost : ∀ k, (level k (ranked xs)).length ≤ m)
    (hreached : ∃ k, (level k (ranked xs)).length = m) :
    Longest (fun x y => y ≤ x) xs m ↔ OneLevel xs := by
  constructor
  · intro hlong
    obtain ⟨k, hk⟩ := hreached
    exact ⟨level k (ranked xs), k, level_sublist, fun p hp => (mem_level.mp hp).2, by rwa [hk]⟩
  · rintro ⟨s, k, hs, hk, hlong⟩
    obtain ⟨l, hl⟩ := hreached
    have hle : m ≤ s.length := by
      rw [← hl, ← List.length_map (f := Prod.fst)]
      refine hlong.most _ ?_ ((ranked_ranked xs).level_pairwise l)
      have hsub := (level_sublist (k := l) (r := ranked xs)).map Prod.fst
      rwa [map_fst_ranked] at hsub
    have hge : s.length ≤ m := by
      refine le_trans ?_ (hmost k)
      have hsub : s.Sublist (level k (ranked xs)) := by
        have hself : s.filter (fun p => p.2 == k) = s :=
          List.filter_eq_self.mpr fun p hp => beq_iff_eq.mpr (hk p hp)
        rw [← hself]
        exact hs.filter _
      exact hsub.length_le
    rwa [Nat.le_antisymm hle hge]

end Montauk.Subsequence
