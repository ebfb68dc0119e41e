import Mathlib.Algebra.Order.Ring.Int
import Mathlib.Data.List.Sort
import Montauk.Sort.Hoare

/-!
# Selection

`DEF_SELECT` narrows a range around position `k`, one partition at a time.
Elements left of the range are below everything from its left end on, and
elements right of it above everything up to its right end (`Encloses`); when
the range is down to `k`, or `k` falls between the two parts, the element
there is the `k`-th smallest.
-/

namespace Montauk.Sort

/-! ## The function -/

section

variable {α : Type} [LT α] [DecidableLT α]

/-- `while (left < right)`. -/
def selectLoop (kk : Int) : Nat → Int → Int → List α → Option (List α)
  | 0, _, _, _ => none
  | fuel + 1, left, right, arr =>
      if left < right then do
        let pivot ← cell arr ((left + right) / 2)
        let (i, j, arr) ← partitionLoop false (fun x => decide (x < pivot))
          (fun x => decide (pivot < x)) left right (arr.length + 3) left right arr
        if kk ≤ j then selectLoop kk fuel left j arr
        else if i ≤ kk then selectLoop kk fuel i right arr
        else some arr
      else some arr

/-- `sublimation_select_*`: the returned element and the array. -/
def sublimationSelect [Zero α] (arr : List α) (k : Nat) : Option (α × List α) :=
  if arr.length = 0 then some (0, arr)
  else
    let k := if arr.length ≤ k then arr.length - 1 else k
    do
      let arr ← selectLoop k arr.length 0 (arr.length - 1) arr
      let x ← cell arr k
      some (x, arr)

end

variable {α : Type} [LinearOrder α] {a a' : List α} {l r i j : Int} {p : α}

/-! ## Narrowing the range -/

/-- What is left of the range, and what is right of it. -/
structure Encloses (a : List α) (l r : Int) : Prop where
  below : ∀ x y, x < l → l ≤ y → LeAt id a x y
  above : ∀ x y, x ≤ r → r < y → LeAt id a x y

theorem Encloses.start (a : List α) : Encloses a 0 (a.length - 1) where
  below x y hx _ u v hu _ := absurd (cell_range hu).1 (by omega)
  above x y _ hy u v _ hv := absurd (cell_range hv).2 (by omega)

theorem Encloses.shuffled (h : Encloses a l r) (h0 : 0 ≤ l) (hr : r < a.length)
    (hs : Shuffled l r a a') : Encloses a' l r := by
  constructor
  · intro x y hx hy u v hu hv
    rw [hs.outside x (Or.inl hx)] at hu
    by_cases hyr : y ≤ r
    · obtain ⟨y', hy', hv'⟩ := hs.mem h0 hr ⟨hy, hyr⟩ hv
      exact h.below x y' hx hy'.1 u v hu hv'
    · rw [hs.outside y (Or.inr (by omega))] at hv
      exact h.below x y hx hy u v hu hv
  · intro x y hx hy u v hu hv
    rw [hs.outside y (Or.inr hy)] at hv
    by_cases hxl : l ≤ x
    · obtain ⟨x', hx', hu'⟩ := hs.mem h0 hr ⟨hxl, hx⟩ hu
      exact h.above x' y hx'.2 hy u v hu' hv
    · rw [hs.outside x (Or.inl (by omega))] at hu
      exact h.above x y hx hy u v hu hv

theorem Encloses.left (h : Encloses a' l r) (hp : Parted id p l r a a' i j) :
    Encloses a' l j := by
  refine ⟨h.below, fun x y hx hy => ?_⟩
  have hcross := hp.crossed
  have hright := hp.right
  by_cases hyr : y ≤ r
  · by_cases hxl : l ≤ x
    · exact LeAt.of_bounds (hp.low x hxl (by omega)) (hp.high y hy hyr)
    · exact h.below x y (by omega) (by omega)
  · exact h.above x y (by omega) (by omega)

theorem Encloses.right (h : Encloses a' l r) (hp : Parted id p l r a a' i j) :
    Encloses a' i r := by
  refine ⟨fun x y hx hy => ?_, h.above⟩
  have hcross := hp.crossed
  have hleft := hp.left
  by_cases hyr : y ≤ r
  · by_cases hxl : l ≤ x
    · exact LeAt.of_bounds (hp.low x hxl hx) (hp.high y (by omega) hyr)
    · exact h.below x y (by omega) (by omega)
  · exact h.above x y (by omega) (by omega)

/-- `arr[k]` with what is in front of it not above it, and nothing behind it
below it. -/
structure Selected (a : List α) (k : Int) : Prop where
  before : ∀ x, x < k → LeAt id a x k
  behind : ∀ x, k < x → LeAt id a k x

theorem Encloses.selected {k : Int} (h : Encloses a' l r) (hp : Parted id p l r a a' i j)
    (hjk : j < k) (hki : k < i) (hlk : l ≤ k) (hkr : k ≤ r) : Selected a' k := by
  constructor
  · intro x hx
    by_cases hxl : l ≤ x
    · exact LeAt.of_bounds (hp.low x hxl (by omega)) (hp.high k hjk hkr)
    · exact h.below x k (by omega) hlk
  · intro x hx
    by_cases hxr : x ≤ r
    · exact LeAt.of_bounds (hp.low k hlk hki) (hp.high x (by omega) hxr)
    · exact h.above k x hkr (by omega)

theorem Encloses.selected_of_eq {k : Int} (h : Encloses a k k) : Selected a k where
  before x hx := h.below x k hx (le_refl k)
  behind x hx := h.above k x (le_refl k) hx

/-- Each round ends with the array shuffled and position `k` settled, or with
a smaller range around `k`. -/
theorem selectLoop_spec (kk : Int) (fuel : Nat) (left right : Int) (hk : left ≤ kk ∧ kk ≤ right)
    (h0 : 0 ≤ left) (hr : right < a.length) (h : Encloses a left right)
    (hfuel : (right - left).toNat < fuel) :
    ∃ a', selectLoop kk fuel left right a = some a' ∧ a'.Perm a ∧ Selected a' kk := by
  induction fuel generalizing left right a with
  | zero => exact absurd hfuel (Nat.not_lt_zero _)
  | succ fuel ih =>
      rw [selectLoop]
      by_cases hlr : left < right
      · rw [if_pos hlr]
        have hmid : left ≤ (left + right) / 2 ∧ (left + right) / 2 ≤ right := by omega
        obtain ⟨pivot, hpivot⟩ := exists_cell (a := a) (by omega : 0 ≤ (left + right) / 2) (by omega)
        obtain ⟨i, j, a', hloop, hp⟩ := partition_spec false id h0 hr hmid.1 hmid.2 nofun hpivot
          (fun x => (decide_eq_true_iff : decide (x < pivot) = true ↔ _))
          (fun x => (decide_eq_true_iff : decide (pivot < x) = true ↔ _))
        have henc := h.shuffled h0 hr hp.shuffled
        have hlen := hp.shuffled.length_eq
        have hleft := hp.left
        have hright := hp.right
        rw [hpivot, Option.bind_eq_bind, Option.bind_some, hloop, Option.bind_eq_bind, Option.bind_some]
        by_cases hkj : kk ≤ j
        · obtain ⟨b, hb, hperm, hsel⟩ := ih left j ⟨hk.1, hkj⟩ h0 (by omega)
            (henc.left hp) (by omega)
          refine ⟨b, ?_, hperm.trans hp.shuffled.perm, hsel⟩
          show (if kk ≤ j then _ else _) = _
          rw [if_pos hkj, hb]
        · by_cases hik : i ≤ kk
          · obtain ⟨b, hb, hperm, hsel⟩ := ih i right ⟨hik, hk.2⟩ (by omega)
              (by omega) (henc.right hp) (by omega)
            refine ⟨b, ?_, hperm.trans hp.shuffled.perm, hsel⟩
            show (if kk ≤ j then _ else _) = _
            rw [if_neg hkj, if_pos hik, hb]
          · refine ⟨a', ?_, hp.shuffled.perm,
              henc.selected hp (by omega) (by omega) hk.1 hk.2⟩
            show (if kk ≤ j then _ else _) = _
            rw [if_neg hkj, if_neg hik]
      · rw [if_neg hlr]
        obtain rfl : left = kk := by omega
        obtain rfl : right = left := by omega
        exact ⟨a, rfl, List.Perm.refl a, h.selected_of_eq⟩

/-! ## The `k`-th smallest element -/

/-- The element at `k` when the array is put in order. -/
def kthSmallest (a : List α) (k : Nat) : Option α := (a.mergeSort fun x y => decide (x ≤ y))[k]?

theorem kthSmallest_eq {xs ys : List α} {v : α} (hp : (xs ++ v :: ys).Perm a)
    (hxs : ∀ x ∈ xs, x ≤ v) (hys : ∀ y ∈ ys, v ≤ y) : kthSmallest a xs.length = some v := by
  have hle : ∀ l : List α, (l.mergeSort fun x y => decide (x ≤ y)).Pairwise (· ≤ ·) :=
    fun l => List.pairwise_mergeSort' (· ≤ ·) l
  have hperm : ∀ l : List α, (l.mergeSort fun x y => decide (x ≤ y)).Perm l :=
    fun l => List.mergeSort_perm l _
  have hsorted : ((xs.mergeSort fun x y => decide (x ≤ y))
      ++ v :: ys.mergeSort fun x y => decide (x ≤ y)).Pairwise (· ≤ ·) := by
    refine List.pairwise_append.mpr ⟨hle xs, List.pairwise_cons.mpr ⟨?_, hle ys⟩, ?_⟩
    · exact fun y hy => hys y ((hperm ys).mem_iff.mp hy)
    · intro x hx y hy
      have hxv := hxs x ((hperm xs).mem_iff.mp hx)
      rcases List.mem_cons.mp hy with rfl | hy
      · exact hxv
      · exact le_trans hxv (hys y ((hperm ys).mem_iff.mp hy))
  have hsame : (a.mergeSort fun x y => decide (x ≤ y))
      = (xs.mergeSort fun x y => decide (x ≤ y)) ++ v :: ys.mergeSort fun x y => decide (x ≤ y) :=
    List.Perm.eq_of_pairwise' (hle a) hsorted
      ((hperm a).trans (hp.symm.trans (((hperm xs).append ((hperm ys).cons v)).symm)))
  rw [kthSmallest, hsame, List.getElem?_append_right (by rw [List.length_mergeSort]),
    List.length_mergeSort, Nat.sub_self, List.getElem?_cons_zero]

theorem Selected.take_le {k : Nat} {v : α} (h : Selected a k) (hv : a[k]? = some v) :
    ∀ x ∈ a.take k, x ≤ v := by
  intro x hx
  obtain ⟨m, hm, rfl⟩ := List.getElem_of_mem hx
  rw [List.length_take] at hm
  refine h.before m (by omega) _ _ ?_ (by rw [cell_natCast, hv])
  rw [cell_natCast, List.getElem_take, List.getElem?_eq_getElem (by omega)]

theorem Selected.le_drop {k : Nat} {v : α} (h : Selected a k) (hv : a[k]? = some v) :
    ∀ y ∈ a.drop (k + 1), v ≤ y := by
  intro y hy
  obtain ⟨m, hm, rfl⟩ := List.getElem_of_mem hy
  rw [List.length_drop] at hm
  refine h.behind (k + 1 + m : Nat) (by omega) _ _ (by rw [cell_natCast, hv]) ?_
  rw [cell_natCast, List.getElem_drop, List.getElem?_eq_getElem (by omega)]

theorem Selected.kthSmallest {k : Nat} {v : α} (h : Selected a' k) (hp : a'.Perm a)
    (hv : a'[k]? = some v) : kthSmallest a k = some v := by
  obtain ⟨hk, hget⟩ := List.getElem?_eq_some_iff.mp hv
  have hsplit : a' = a'.take k ++ v :: a'.drop (k + 1) := by
    rw [← hget, ← List.drop_eq_getElem_cons hk, List.take_append_drop]
  rw [hsplit] at hp
  have hkth := kthSmallest_eq hp (h.take_le hv) (h.le_drop hv)
  rwa [List.length_take, Nat.min_eq_left (Nat.le_of_lt hk)] at hkth

/-- **Selection** ends, returns the `k`-th smallest element and leaves it at
its place, with nothing above it in front of it and nothing below it behind.
Neither scan reads outside of the range of its round. -/
theorem sublimationSelect_spec [Zero α] (a : List α) (k : Nat) (hne : a ≠ []) :
    ∃ v a', sublimationSelect a k = some (v, a') ∧ a'.Perm a
      ∧ kthSmallest a (min k (a.length - 1)) = some v
      ∧ a'[min k (a.length - 1)]? = some v
      ∧ (∀ x ∈ a'.take (min k (a.length - 1)), x ≤ v)
      ∧ ∀ y ∈ a'.drop (min k (a.length - 1) + 1), v ≤ y := by
  have hpos := List.length_pos_iff.mpr hne
  have hclamp : (if a.length ≤ k then a.length - 1 else k) = min k (a.length - 1) := by
    split <;> omega
  obtain ⟨a', hloop, hperm, hsel⟩ := selectLoop_spec (min k (a.length - 1) : Nat) a.length 0
    (a.length - 1) (by omega) (le_refl 0) (by omega)
    (Encloses.start a) (by omega)
  have hk : min k (a.length - 1) < a'.length := by
    rw [hperm.length_eq]
    omega
  have hv := List.getElem?_eq_getElem hk
  have hcell : cell a' (min k (a.length - 1) : Nat) = some a'[min k (a.length - 1)] := by
    rw [cell_natCast, hv]
  refine ⟨a'[min k (a.length - 1)], a', ?_, hperm, hsel.kthSmallest hperm hv, hv,
    hsel.take_le hv, hsel.le_drop hv⟩
  rw [sublimationSelect, if_neg (by omega)]
  dsimp only
  rw [hclamp, hloop, Option.bind_eq_bind, Option.bind_some, hcell]
  rfl

theorem sublimationSelect_middle :
    ([3, 1, 2, 2] : List Int) ≠ [] ∧ ∃ v a', sublimationSelect ([3, 1, 2, 2] : List Int) 1 = some (v, a')
      ∧ kthSmallest [3, 1, 2, 2] (min 1 3) = some v := by
  obtain ⟨v, a', hrun, -, hkth, -⟩ := sublimationSelect_spec ([3, 1, 2, 2] : List Int) 1 (by decide)
  exact ⟨by decide, v, a', hrun, hkth⟩

end Montauk.Sort
