import Mathlib.Data.List.Forall2

/-!
# Order statistics

What stands at a place of a row in order is read off how many entries of the
row are small (`rel_getElem_of_countP`). So of two rows of which one is nowhere
larger than the other, the first is nowhere larger when both are put in order
(`rel_getElem_of_forall₂`).
-/

namespace Montauk.OrderStatistics

section

variable {α : Type} {r : α → α → Prop} [DecidableRel r]

/-- As many entries as come before a place and one more are not above what
stands there. -/
theorem lt_countP_getElem (hrefl : ∀ a, r a a) {l : List α} (hl : l.Pairwise r) {i : Nat} (hi : i < l.length) :
    i < l.countP fun a => r a l[i] := by
  have hfront : (l.take (i + 1)).countP (fun a => r a l[i]) = (l.take (i + 1)).length := by
    refine List.countP_eq_length.mpr fun a ha => decide_eq_true ?_
    obtain ⟨j, hj, rfl⟩ := List.mem_take_iff_getElem.mp ha
    have hji : j ≤ i := Nat.le_of_lt_succ (Nat.lt_of_lt_of_le hj (Nat.min_le_left _ _))
    rcases Nat.lt_or_eq_of_le hji with hlt | rfl
    · exact List.pairwise_iff_getElem.mp hl j i _ hi hlt
    · exact hrefl _
  have hlen : (l.take (i + 1)).length = i + 1 := List.length_take_of_le hi
  calc i < (l.take (i + 1)).countP fun a => r a l[i] := by rw [hfront, hlen]; exact Nat.lt_succ_self i
    _ ≤ l.countP fun a => r a l[i] := (List.take_sublist _ _).countP_le

/-- Where more entries than come before a place are not above `x`, what stands
there is not. -/
theorem rel_getElem_of_countP (htrans : ∀ a b c, r a b → r b c → r a c) (hrefl : ∀ a, r a a) {l : List α}
    (hl : l.Pairwise r) {x : α} {i : Nat} (hi : i < l.length) (h : i < l.countP fun a => r a x) : r l[i] x := by
  by_contra hnot
  -- nothing from the place on is below `x`
  have hback : (l.drop i).countP (fun a => r a x) = 0 := by
    refine List.countP_eq_zero.mpr fun a ha hax => hnot ?_
    obtain ⟨j, hj, rfl⟩ := List.mem_drop_iff_getElem.mp ha
    refine htrans _ _ _ ?_ (of_decide_eq_true hax)
    rcases Nat.eq_zero_or_pos j with rfl | hpos
    · exact hrefl _
    · exact List.pairwise_iff_getElem.mp hl i (i + j) hi _ (Nat.lt_add_of_pos_right hpos)
  have hsplit : l.countP (fun a => r a x) = (l.take i).countP fun a => r a x := by
    rw [← List.take_append_drop i l, List.countP_append, hback, List.take_append_drop, Nat.add_zero]
  have hle := (l.take i).countP_le_length (p := fun a => decide (r a x))
  rw [hsplit] at h
  rw [List.length_take] at hle
  exact absurd (Nat.lt_of_lt_of_le h hle) (Nat.not_lt.mpr (Nat.min_le_left _ _))

theorem countP_le_of_forall₂ (htrans : ∀ a b c, r a b → r b c → r a c) {v w : List α} (h : List.Forall₂ r v w)
    (x : α) : (w.countP fun a => r a x) ≤ v.countP fun a => r a x := by
  induction h with
  | nil => exact Nat.le_refl 0
  | @cons a b v w hab _ ih =>
    rw [List.countP_cons, List.countP_cons]
    refine Nat.add_le_add ih ?_
    by_cases hb : r b x
    · have ha : r a x := htrans a b x hab hb
      exact Nat.le_of_eq ((if_pos (decide_eq_true hb)).trans (if_pos (decide_eq_true ha)).symm)
    · rw [if_neg (by simpa using hb)]
      exact Nat.zero_le _

/-- Of two rows, one nowhere above the other, the same holds in order. -/
theorem rel_getElem_of_forall₂ (hrefl : ∀ a, r a a) (htrans : ∀ a b c, r a b → r b c → r a c)
    {v w v' w' : List α} (h : List.Forall₂ r v w) (hv : v'.Perm v) (hw : w'.Perm w) (hv' : v'.Pairwise r)
    (hw' : w'.Pairwise r) {i : Nat} (hi : i < v'.length) (hi' : i < w'.length) : r v'[i] w'[i] := by
  refine rel_getElem_of_countP htrans hrefl hv' hi ?_
  rw [hv.countP_eq]
  calc i < w'.countP fun a => r a w'[i] := lt_countP_getElem hrefl hw' hi'
    _ = w.countP fun a => r a w'[i] := hw.countP_eq _
    _ ≤ v.countP fun a => r a w'[i] := countP_le_of_forall₂ htrans h _

end

end Montauk.OrderStatistics
