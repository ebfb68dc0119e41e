import Mathlib.Algebra.GroupWithZero.Nat
import Mathlib.Order.Interval.Finset.Nat

/-!
# Half-open intervals

A row of half-open intervals of which each ends before the next begins covers
as many instants of a window as the parts of its members there are long
(`card_covered`), so no more than the window has (`sum_clipLen_le`).
-/

namespace Montauk.Intervals

/-- The length of the part of an interval that lies in `[a, b)`. -/
def clipLen (a b : Nat) (iv : Nat × Nat) : Nat := min iv.2 b - max iv.1 a

def Apart (ivs : List (Nat × Nat)) : Prop := ivs.Pairwise fun p q => p.2 ≤ q.1

def Holds (iv : Nat × Nat) (t : Nat) : Prop := iv.1 ≤ t ∧ t < iv.2

instance (iv : Nat × Nat) (t : Nat) : Decidable (Holds iv t) := inferInstanceAs (Decidable (_ ∧ _))

/-- The instants of `[a, b)` that lie in one of the intervals. -/
def covered (a b : Nat) (ivs : List (Nat × Nat)) : Finset Nat :=
  (Finset.Ico a b).filter fun t => ∃ iv ∈ ivs, Holds iv t

theorem clipLen_eq_zero_of_le {a b : Nat} {iv : Nat × Nat} (h : iv.2 ≤ a ∨ b ≤ iv.1) : clipLen a b iv = 0 := by
  rw [clipLen]
  omega

theorem mem_covered {a b : Nat} {ivs : List (Nat × Nat)} {t : Nat} :
    t ∈ covered a b ivs ↔ (a ≤ t ∧ t < b) ∧ ∃ iv ∈ ivs, Holds iv t := by
  rw [covered, Finset.mem_filter, Finset.mem_Ico]

theorem covered_nil (a b : Nat) : covered a b [] = ∅ := Finset.filter_eq_empty_iff.mpr (by simp)

theorem covered_cons (a b : Nat) (iv : Nat × Nat) (ivs : List (Nat × Nat)) :
    covered a b (iv :: ivs) = Finset.Ico (max iv.1 a) (min iv.2 b) ∪ covered a b ivs := by
  ext t
  rw [Finset.mem_union, mem_covered, mem_covered, Finset.mem_Ico]
  simp only [List.mem_cons, exists_eq_or_imp, Holds]
  constructor
  · rintro ⟨⟨ha, hb⟩, ⟨hlo, hhi⟩ | hrest⟩
    · exact .inl ⟨by omega, by omega⟩
    · exact .inr ⟨⟨ha, hb⟩, hrest⟩
  · rintro (⟨hlo, hhi⟩ | ⟨hab, hrest⟩)
    · exact ⟨⟨by omega, by omega⟩, .inl ⟨by omega, by omega⟩⟩
    · exact ⟨hab, .inr hrest⟩

theorem card_covered {ivs : List (Nat × Nat)} (h : Apart ivs) (a b : Nat) :
    (covered a b ivs).card = (ivs.map (clipLen a b)).sum := by
  induction ivs with
  | nil => rw [covered_nil]; rfl
  | cons iv ivs ih =>
    obtain ⟨hiv, hrest⟩ := List.pairwise_cons.mp h
    -- what lies in the first lies in no other
    have hdisjoint : Disjoint (Finset.Ico (max iv.1 a) (min iv.2 b)) (covered a b ivs) := by
      refine Finset.disjoint_left.mpr fun t ht hcov => ?_
      obtain ⟨-, iv', hmem, hlo, -⟩ := mem_covered.mp hcov
      have hend := (Finset.mem_Ico.mp ht).2
      have hnext := hiv iv' hmem
      omega
    rw [covered_cons, Finset.card_union_of_disjoint hdisjoint, Nat.card_Ico, ih hrest, List.map_cons, List.sum_cons,
      clipLen]

theorem sum_clipLen_le {ivs : List (Nat × Nat)} (h : Apart ivs) (a b : Nat) :
    (ivs.map (clipLen a b)).sum ≤ b - a := by
  rw [← card_covered h, ← Nat.card_Ico]
  exact Finset.card_filter_le _ _

theorem sum_clipLen_middle {a b : Nat} {before ivs after : List (Nat × Nat)} (hbefore : ∀ iv ∈ before, iv.2 ≤ a)
    (hafter : ∀ iv ∈ after, b ≤ iv.1) :
    ((before ++ ivs ++ after).map (clipLen a b)).sum = (ivs.map (clipLen a b)).sum := by
  have hzero : ∀ l : List (Nat × Nat), (∀ iv ∈ l, clipLen a b iv = 0) → (l.map (clipLen a b)).sum = 0 := by
    intro l hl
    refine List.sum_eq_zero_iff_forall_eq_nat.mpr fun n hn => ?_
    obtain ⟨iv, hiv, rfl⟩ := List.mem_map.mp hn
    exact hl iv hiv
  rw [List.map_append, List.map_append, List.sum_append, List.sum_append,
    hzero before fun iv hiv => clipLen_eq_zero_of_le (.inl (hbefore iv hiv)),
    hzero after fun iv hiv => clipLen_eq_zero_of_le (.inr (hafter iv hiv)), Nat.zero_add, Nat.add_zero]

end Montauk.Intervals
