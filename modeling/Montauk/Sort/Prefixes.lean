import Montauk.Sort.Insertion

/-!
# Prefixes of stable sorts

A stable sort by a finer key and the stable sort by a coarser one begin with the
same `m` elements exactly if, in the latter, none of these stands in front of one
with a smaller fine key (`StableSort.take_eq_iff`). What comes behind them does
not matter.
-/

namespace Montauk.Sort

variable {α κ κ' : Type} [LinearOrder κ] [LinearOrder κ'] {key : α → κ} {fine : α → κ'} {a b : List α}

/-- Elements in the order of a coarser key's classes are in that of a finer
key's. -/
theorem SameOrder.refine (h : SameOrder key a b) (hmono : ∀ x y, fine x = fine y → key x = key y) :
    SameOrder fine a b := by
  intro k
  by_cases hk : ∃ x ∈ a, fine x = k
  · obtain ⟨x, -, rfl⟩ := hk
    have hclass : ∀ xs : List α, ofKey fine (fine x) xs = ofKey fine (fine x) (ofKey key (key x) xs) := by
      intro xs
      rw [ofKey, ofKey, ofKey, List.filter_filter]
      refine List.filter_congr fun y _ => ?_
      by_cases hy : fine y = fine x
      · simp [hy, hmono y x hy]
      · simp [hy]
    rw [hclass b, hclass a, h (key x)]
  · have hnone : ∀ x ∈ a, fine x ≠ k := fun x hx hxk => hk ⟨x, hx, hxk⟩
    rw [ofKey_eq_nil hnone, ofKey_eq_nil fun x hx => hnone x (h.perm.mem_iff.mp hx)]

variable {v sorted sorted' : List α}

theorem StableSort.of_coarse (h : StableSort fine v sorted') (h' : StableSort key v sorted)
    (hmono : ∀ x y, fine x ≤ fine y → key x ≤ key y) : StableSort fine sorted sorted' := by
  have heq : ∀ x y, fine x = fine y → key x = key y := fun x y hxy =>
    le_antisymm (hmono x y hxy.le) (hmono y x hxy.ge)
  exact ⟨h.sorted, fun k => (h.stable k).trans (h'.stable.refine heq k).symm⟩

/-- None of the first `m` elements stands in front of one with a smaller key. -/
def PrefixSettled (fine : α → κ') (m : Nat) (xs : List α) : Prop :=
  ∀ before x after, xs = before ++ x :: after → before.length < m → ∀ y ∈ after, fine x ≤ fine y

theorem pairwise_of_splits {R : α → α → Prop} {xs : List α}
    (h : ∀ before x after, xs = before ++ x :: after → ∀ y ∈ after, R x y) : xs.Pairwise R := by
  induction xs with
  | nil => exact List.Pairwise.nil
  | cons x xs ih =>
      refine List.pairwise_cons.mpr ⟨h [] x xs rfl, ih fun before z after hsplit => ?_⟩
      exact h (x :: before) z after (by rw [hsplit, List.cons_append])

theorem prefixSettled_iff {m : Nat} {xs : List α} : PrefixSettled fine m xs
    ↔ Ascending fine (xs.take m) ∧ ∀ x ∈ xs.take m, ∀ y ∈ xs.drop m, fine x ≤ fine y := by
  constructor
  · intro h
    have hsplit : ∀ before x after, xs.take m = before ++ x :: after →
        ∀ y ∈ after ++ xs.drop m, fine x ≤ fine y := by
      intro before x after htake
      refine h before x (after ++ xs.drop m) ?_ ?_
      · rw [← List.cons_append, ← List.append_assoc, ← htake, List.take_append_drop]
      · have hlen := congrArg List.length htake
        simp only [List.length_append, List.length_cons, List.length_take] at hlen
        omega
    refine ⟨pairwise_of_splits fun before x after htake y hy => ?_, fun x hx y hy => ?_⟩
    · exact hsplit before x after htake y (List.mem_append_left _ hy)
    · obtain ⟨before, after, htake⟩ := List.append_of_mem hx
      exact hsplit before x after htake y (List.mem_append_right _ hy)
  · rintro ⟨hasc, hacross⟩ before x after rfl hlt y hy
    have htake : (before ++ x :: after).take m = before ++ x :: after.take (m - before.length - 1) := by
      rw [List.take_append, List.take_of_length_le hlt.le, List.take_cons (by omega)]
    have hdrop : (before ++ x :: after).drop m = after.drop (m - before.length - 1) := by
      rw [List.drop_append, List.drop_of_length_le hlt.le, List.nil_append, List.drop_cons (by omega)]
    rw [htake] at hasc hacross
    rw [hdrop] at hacross
    rw [← List.take_append_drop (m - before.length - 1) after] at hy
    rcases List.mem_append.mp hy with hy | hy
    · exact (List.pairwise_cons.mp hasc.right).1 y hy
    · exact hacross x (List.mem_append_right _ List.mem_cons_self) y hy

/-- Both sorts begin alike exactly if the coarser one's beginning is settled. -/
theorem StableSort.take_eq_iff (h : StableSort fine v sorted') (h' : StableSort key v sorted)
    (hmono : ∀ x y, fine x ≤ fine y → key x ≤ key y) (m : Nat) :
    sorted'.take m = sorted.take m ↔ PrefixSettled fine m sorted := by
  have hfine := h.of_coarse h' hmono
  have hperm := hfine.perm
  rw [prefixSettled_iff]
  constructor
  · intro htake
    have hsplit : sorted' = sorted.take m ++ sorted'.drop m := by
      rw [← htake, List.take_append_drop]
    have hasc := hfine.sorted
    rw [hsplit] at hasc
    have hrest : (sorted'.drop m).Perm (sorted.drop m) := by
      have hparts : (sorted.take m ++ sorted'.drop m).Perm (sorted.take m ++ sorted.drop m) := by
        rwa [← hsplit, List.take_append_drop]
      exact (List.perm_append_left_iff _).mp hparts
    exact ⟨hasc.left, fun x hx y hy => hasc.across x hx y (hrest.mem_iff.mpr hy)⟩
  · rintro ⟨hasc, hacross⟩
    obtain ⟨rest, -, hrest⟩ := insertionSort_stable fine (sorted.drop m)
    have hwhole : StableSort fine (sorted.take m ++ sorted.drop m) (sorted.take m ++ rest) :=
      .of_append (.refl hasc) hrest
        (.refl (hasc.append hrest.sorted fun x hx y hy => hacross x hx y (hrest.perm.mem_iff.mp hy)))
    rw [List.take_append_drop] at hwhole
    rw [hfine.unique hwhole, List.take_append, List.take_take, Nat.min_self]
    have hzero : rest.take (m - (sorted.take m).length) = [] := by
      rw [List.take_eq_nil_iff, List.length_take]
      by_cases hm : m ≤ sorted.length
      · exact .inl (by omega)
      · refine .inr (List.eq_nil_of_length_eq_zero ?_)
        rw [hrest.length_eq, List.length_drop]
        omega
    rw [hzero, List.append_nil]

end Montauk.Sort
