import Mathlib.Data.Finset.Powerset
import Mathlib.Data.Finset.Sort
import Mathlib.Data.Nat.Choose.Basic
import Montauk.Machine.Enumerate

/-!
# Stepping through the combinations

The strictly ascending lists of `n` numbers below `n + m`, in lexicographic
order. The successor of a list counts up the last number that is not as large
as its place allows, and puts the next numbers behind it (`next`).

The combinations split by whether the smallest number is among them. The
successor respects the split, so it walks the list of all of them
(`walks_combos`), which has each combination once (`combos_nodup`,
`mem_combos`).
-/

namespace Montauk.Combinations

open Montauk.Enumerate

/-- The successor of a combination whose first number is at most `top`. -/
def next (top : Nat) : List Nat → Option (List Nat)
  | [] => none
  | x :: s =>
      match next (top + 1) s with
      | some s' => some (x :: s')
      | none => if x = top then none else some (List.range' (x + 1) (s.length + 1))

/-- The combinations of `n` numbers from `lo` on, with `m` left out. -/
def combos (lo : Nat) : Nat → Nat → List (List Nat)
  | 0, _ => [[]]
  | n + 1, 0 => [List.range' lo (n + 1)]
  | n + 1, m + 1 => (combos (lo + 1) n (m + 1)).map (lo :: ·) ++ combos (lo + 1) (n + 1) m
termination_by n m => n + m

variable {lo n m : Nat} {s : List Nat}

/-! ## Each combination once -/

/-- A combination of `n` numbers from `lo` on, with `m` left out. -/
structure IsCombo (lo n m : Nat) (s : List Nat) : Prop where
  length : s.length = n
  ascending : s.Pairwise (· < ·)
  range : ∀ x ∈ s, lo ≤ x ∧ x < lo + n + m

theorem IsCombo.of_cons {x : Nat} (h : IsCombo lo (n + 1) m (x :: s)) (hx : x = lo) : IsCombo (lo + 1) n m s where
  length := Nat.succ.inj h.length
  ascending := (List.pairwise_cons.mp h.ascending).2
  range y hy := by
    have hlt := (List.pairwise_cons.mp h.ascending).1 y hy
    have hrange := h.range y (List.mem_cons_of_mem _ hy)
    omega

theorem IsCombo.cons (h : IsCombo (lo + 1) n m s) : IsCombo lo (n + 1) m (lo :: s) where
  length := congrArg Nat.succ h.length
  ascending := List.pairwise_cons.mpr ⟨fun x hx => (h.range x hx).1, h.ascending⟩
  range := by
    refine List.forall_mem_cons.mpr ⟨by omega, fun x hx => ?_⟩
    have hrange := h.range x hx
    omega

theorem isCombo_zero_iff : IsCombo lo n 0 s ↔ s = List.range' lo n := by
  constructor
  · intro h
    induction n generalizing lo s with
    | zero => exact List.eq_nil_of_length_eq_zero h.length
    | succ n ih =>
        cases s with
        | nil => exact absurd h.length nofun
        | cons x s =>
            -- `n` numbers above the first one leave it no other place
            have hx : x = lo := by
              by_contra hne
              have hsub : (x :: s) ⊆ List.range' (lo + 1) n := by
                intro y hy
                have hrange := h.range y hy
                have hfirst := h.range x List.mem_cons_self
                rw [List.mem_range'_1]
                rcases List.mem_cons.mp hy with rfl | htail
                · omega
                · have hlt := (List.pairwise_cons.mp h.ascending).1 y htail
                  omega
              have hnodup : (x :: s).Nodup := h.ascending.imp Nat.ne_of_lt
              have hle := (List.subperm_of_subset hnodup hsub).length_le
              rw [List.length_range', h.length] at hle
              omega
            rw [hx, ih (h.of_cons hx), List.range'_succ]
  · rintro rfl
    refine ⟨List.length_range', List.pairwise_lt_range', fun x hx => ?_⟩
    rw [List.mem_range'_1] at hx
    omega

theorem mem_combos : s ∈ combos lo n m ↔ IsCombo lo n m s := by
  induction lo, n, m using combos.induct generalizing s with
  | case1 lo m =>
      rw [combos, List.mem_singleton]
      refine ⟨?_, fun h => List.eq_nil_of_length_eq_zero h.length⟩
      rintro rfl
      exact ⟨rfl, List.Pairwise.nil, fun _ h => absurd h List.not_mem_nil⟩
  | case2 lo n => rw [combos, List.mem_singleton, isCombo_zero_iff]
  | case3 lo n m ih1 ih2 =>
      rw [combos, List.mem_append, List.mem_map]
      constructor
      · rintro (⟨t, ht, rfl⟩ | h)
        · exact (ih1.mp ht).cons
        · obtain ⟨hlength, hascending, hrange⟩ := ih2.mp h
          exact ⟨hlength, hascending, fun x hx => by have := hrange x hx; omega⟩
      · intro h
        cases s with
        | nil => exact absurd h.length nofun
        | cons x s =>
            by_cases hx : x = lo
            · exact .inl ⟨s, ih1.mpr (h.of_cons hx), by rw [hx]⟩
            · refine .inr (ih2.mpr ⟨h.length, h.ascending, fun y hy => ?_⟩)
              have hfirst := h.range x List.mem_cons_self
              have hrange := h.range y hy
              rcases List.mem_cons.mp hy with rfl | htail
              · omega
              · have hlt := (List.pairwise_cons.mp h.ascending).1 y htail
                omega

theorem combos_nodup : (combos lo n m).Nodup := by
  induction lo, n, m using combos.induct with
  | case1 lo m => rw [combos]; exact List.nodup_singleton _
  | case2 lo n => rw [combos]; exact List.nodup_singleton _
  | case3 lo n m ih1 ih2 =>
      rw [combos]
      refine List.nodup_append.mpr ⟨ih1.map fun _ _ h => (List.cons.inj h).2, ih2, ?_⟩
      rintro s hs t ht rfl
      obtain ⟨u, -, rfl⟩ := List.mem_map.mp hs
      have := ((mem_combos.mp ht).range lo List.mem_cons_self).1
      omega

theorem length_combos : (combos lo n m).length = (n + m).choose n := by
  induction lo, n, m using combos.induct with
  | case1 lo m => rw [combos, Nat.choose_zero_right]; rfl
  | case2 lo n => rw [combos, Nat.add_zero, Nat.choose_self]; rfl
  | case3 lo n m ih1 ih2 =>
      rw [combos, List.length_append, List.length_map, ih1, ih2, Nat.add_right_comm n 1 (m + 1),
        Nat.choose_succ_succ, Nat.add_right_comm n 1 m]
      rfl

/-! ## The walk -/

theorem next_range' (lo n : Nat) : next lo (List.range' lo n) = none := by
  induction n generalizing lo with
  | zero => rfl
  | succ n ih => rw [List.range'_succ, next, ih, if_pos rfl]

theorem exists_combos_cons (lo n m : Nat) : ∃ l, combos lo n m = List.range' lo n :: l := by
  induction lo, n, m using combos.induct with
  | case1 lo m => exact ⟨[], by rw [combos]; rfl⟩
  | case2 lo n => exact ⟨[], by rw [combos]⟩
  | case3 lo n m ih1 ih2 =>
      obtain ⟨l, hl⟩ := ih1
      exact ⟨_, by rw [combos, hl, List.map_cons, List.cons_append, ← List.range'_succ]⟩

/-- **The successor walks the combinations.** -/
theorem walks_combos : Walks (next (lo + m)) none (combos lo n m) := by
  induction lo, n, m using combos.induct with
  | case1 lo m => rw [combos]; exact .last rfl
  | case2 lo n => rw [combos]; exact .last (next_range' lo (n + 1))
  | case3 lo n m ih1 ih2 =>
      obtain ⟨l, hl⟩ := exists_combos_cons (lo + 1) (n + 1) m
      have hsecond : Walks (next (lo + (m + 1))) none (combos (lo + 1) (n + 1) m) := by
        rw [← Nat.add_assoc, Nat.add_right_comm]
        exact ih2
      have htop : lo + (m + 1) + 1 = lo + 1 + (m + 1) := Nat.add_right_comm lo (m + 1) 1
      -- with the smallest number kept, the rest steps on until it is at its end
      have hfirst : Walks (next (lo + (m + 1))) (some (List.range' (lo + 1) (n + 1)))
          ((combos (lo + 1) n (m + 1)).map (lo :: ·)) := by
        refine ih1.map (lo :: ·) (fun s t _ hst => ?_) fun s hs hend => ?_
        · rw [next, htop, hst]
        · rw [next, htop, hend, if_neg (by omega : lo ≠ lo + (m + 1)), (mem_combos.mp hs).length]
      rw [hl] at hsecond
      rw [combos, hl]
      exact hfirst.append hsecond

/-! ## As sets -/

/-- Counting in a list without repetition is counting in its set. -/
theorem countP_eq_card_filter {α : Type*} [DecidableEq α] {L : List α} (hL : L.Nodup) (p : α → Prop)
    [DecidablePred p] : L.countP (fun a => p a) = (L.toFinset.filter p).card := by
  rw [List.countP_eq_length_filter, ← List.toFinset_card_of_nodup (hL.filter _)]
  congr 1
  ext a
  rw [List.mem_toFinset, List.mem_filter, Finset.mem_filter, List.mem_toFinset, decide_eq_true_iff]

theorem mem_map_toFinset_combos {S : Finset Nat} :
    S ∈ (combos 0 n m).map List.toFinset ↔ S ∈ (Finset.range (n + m)).powersetCard n := by
  rw [List.mem_map, Finset.mem_powersetCard]
  constructor
  · rintro ⟨s, hs, rfl⟩
    obtain ⟨hlength, hascending, hrange⟩ := mem_combos.mp hs
    refine ⟨fun x hx => ?_, ?_⟩
    · rw [Finset.mem_range, ← Nat.zero_add n]
      exact (hrange x (List.mem_toFinset.mp hx)).2
    · rw [List.toFinset_card_of_nodup (hascending.imp Nat.ne_of_lt), hlength]
  · rintro ⟨hsub, hcard⟩
    refine ⟨S.sort (· ≤ ·), mem_combos.mpr ⟨?_, ?_, fun x hx => ?_⟩, Finset.sort_toFinset _ _⟩
    · rw [Finset.length_sort, hcard]
    · exact (Finset.sortedLT_sort S).pairwise
    · rw [Finset.mem_sort] at hx
      have := Finset.mem_range.mp (hsub hx)
      omega

theorem nodup_map_toFinset_combos : ((combos 0 n m).map List.toFinset).Nodup := by
  refine List.Nodup.map_on (fun s hs t ht hst => ?_) combos_nodup
  have hsorted := (mem_combos.mp hs).ascending
  have htorted := (mem_combos.mp ht).ascending
  refine List.Perm.eq_of_pairwise (fun a b _ _ hab hba => absurd hab (Nat.lt_asymm hba)) hsorted htorted ?_
  refine (List.perm_ext_iff_of_nodup (hsorted.imp Nat.ne_of_lt) (htorted.imp Nat.ne_of_lt)).mpr fun x => ?_
  rw [← List.mem_toFinset, hst, List.mem_toFinset]

end Montauk.Combinations
