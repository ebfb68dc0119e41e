import Mathlib.Data.List.Perm.Basic
import Mathlib.Logic.Equiv.Basic
import Mathlib.Order.Lattice
import Mathlib.Tactic.NthRewrite
import Montauk.Sort.Buffer

/-!
# Ranges of an array

In-place sorts work on a range `[l, r]` of an array by exchanging two cells
at a time. `Shuffled l r` is what they may do to it: permute the range and
leave the rest alone. What they establish is said cell by cell
(`LeAt`), so that it follows an exchange (`leAt_exchange`).

Indices are integers here: a loop that runs downwards may step below zero,
and a read there fails.
-/

namespace Montauk.Sort

variable {α : Type}

/-! ## Cells -/

/-- `arr[i]`. -/
def cell (a : List α) (i : Int) : Option α := if 0 ≤ i then a[i.toNat]? else none

/-- `t = arr[i]; arr[i] = arr[j]; arr[j] = t`. -/
def exchange (a : List α) (i j : Int) : Option (List α) := do
  let t ← cell a i
  let u ← cell a j
  some ((a.set i.toNat u).set j.toNat t)

variable {a a' b : List α} {i j k l r x : Int} {u v : α}

theorem cell_natCast (a : List α) (n : Nat) : cell a n = a[n]? := by
  rw [cell, if_pos (Int.natCast_nonneg n), Int.toNat_natCast]

theorem cell_eq_some_iff : cell a i = some u ↔ 0 ≤ i ∧ a[i.toNat]? = some u := by
  rw [cell]
  by_cases hi : 0 ≤ i
  · rw [if_pos hi]
    exact ⟨fun h => ⟨hi, h⟩, fun h => h.2⟩
  · rw [if_neg hi]
    exact iff_of_false nofun fun h => hi h.1

theorem exists_cell (h0 : 0 ≤ i) (hi : i < a.length) : ∃ u, cell a i = some u := by
  have hlt : i.toNat < a.length := by omega
  exact ⟨a[i.toNat], cell_eq_some_iff.mpr ⟨h0, List.getElem?_eq_getElem hlt⟩⟩

theorem cell_range (h : cell a i = some u) : 0 ≤ i ∧ i < a.length := by
  obtain ⟨h0, hget⟩ := cell_eq_some_iff.mp h
  obtain ⟨hlt, -⟩ := List.getElem?_eq_some_iff.mp hget
  exact ⟨h0, by omega⟩

theorem cell_set (h0 : 0 ≤ i) (hi : i < a.length) :
    cell (a.set i.toNat v) k = if k = i then some v else cell a k := by
  by_cases hk : 0 ≤ k
  · rw [cell, if_pos hk, List.getElem?_set]
    by_cases hki : k = i
    · rw [if_pos hki, if_pos (by rw [hki]), if_pos (by omega)]
    · rw [if_neg hki, if_neg (by omega), cell, if_pos hk]
  · rw [cell, if_neg hk, if_neg (by omega), cell, if_neg hk]

theorem exists_exchange (hu : cell a i = some u) (hv : cell a j = some v) :
    ∃ a', exchange a i j = some a' := by
  refine ⟨(a.set i.toNat v).set j.toNat u, ?_⟩
  rw [exchange, hu, hv]
  rfl

theorem cell_exchange (h : exchange a i j = some a') (k : Int) :
    cell a' k = cell a (Equiv.swap i j k) := by
  obtain ⟨t, ht, h⟩ := Option.bind_eq_some_iff.mp h
  obtain ⟨u, hu, h⟩ := Option.bind_eq_some_iff.mp h
  obtain rfl := Option.some.inj h
  obtain ⟨hi0, hi⟩ := cell_range ht
  obtain ⟨hj0, hj⟩ := cell_range hu
  rw [cell_set hj0 (by rw [List.length_set]; exact hj), cell_set hi0 hi, Equiv.swap_apply_def]
  by_cases hkj : k = j
  · rw [if_pos hkj]
    by_cases hki : k = i
    · rw [if_pos hki, ← hkj, hki, ← ht]
    · rw [if_neg hki, if_pos hkj, ht]
  · rw [if_neg hkj]
    by_cases hki : k = i
    · rw [if_pos hki, if_pos hki, hu]
    · rw [if_neg hki, if_neg hki, if_neg hkj]

theorem cell_exchange_of_ne (h : exchange a i j = some a') (hki : k ≠ i) (hkj : k ≠ j) :
    cell a' k = cell a k := by
  rw [cell_exchange h, Equiv.swap_apply_of_ne_of_ne hki hkj]

theorem cell_exchange_left (h : exchange a i j = some a') : cell a' i = cell a j := by
  rw [cell_exchange h, Equiv.swap_apply_left]

theorem cell_exchange_right (h : exchange a i j = some a') : cell a' j = cell a i := by
  rw [cell_exchange h, Equiv.swap_apply_right]

theorem perm_exchange (h : exchange a i j = some a') : a'.Perm a := by
  obtain ⟨t, ht, h⟩ := Option.bind_eq_some_iff.mp h
  obtain ⟨u, hu, h⟩ := Option.bind_eq_some_iff.mp h
  obtain rfl := Option.some.inj h
  obtain ⟨hi, rfl⟩ := List.getElem?_eq_some_iff.mp (cell_eq_some_iff.mp ht).2
  obtain ⟨hj, rfl⟩ := List.getElem?_eq_some_iff.mp (cell_eq_some_iff.mp hu).2
  exact List.set_set_perm hi hj

/-! ## Shuffled ranges -/

/-- `a'` is `a` with the cells of `[l, r]` permuted. -/
structure Shuffled (l r : Int) (a a' : List α) : Prop where
  perm : a'.Perm a
  outside : ∀ x, x < l ∨ r < x → cell a' x = cell a x

theorem Shuffled.refl (l r : Int) (a : List α) : Shuffled l r a a := ⟨List.Perm.refl a, fun _ _ => rfl⟩

theorem Shuffled.trans (h : Shuffled l r a a') (h' : Shuffled l r a' b) : Shuffled l r a b :=
  ⟨h'.perm.trans h.perm, fun x hx => (h'.outside x hx).trans (h.outside x hx)⟩

theorem Shuffled.mono {l' r' : Int} (h : Shuffled l' r' a a') (hl : l ≤ l') (hr : r' ≤ r) :
    Shuffled l r a a' :=
  ⟨h.perm, fun x hx => h.outside x (by omega)⟩

theorem Shuffled.length_eq (h : Shuffled l r a a') : a'.length = a.length := h.perm.length_eq

theorem shuffled_exchange (h : exchange a i j = some a') (hil : l ≤ i) (hir : i ≤ r) (hjl : l ≤ j)
    (hjr : j ≤ r) : Shuffled l r a a' :=
  ⟨perm_exchange h, fun x hx => cell_exchange_of_ne h (by omega) (by omega)⟩

theorem exists_window (h0 : 0 ≤ l) (hlr : l ≤ r + 1) (hr : r < a.length) :
    ∃ xs w zs, a = xs ++ w ++ zs ∧ (xs.length : Int) = l ∧ (w.length : Int) = r + 1 - l := by
  refine ⟨a.take l.toNat, (a.drop l.toNat).take (r + 1 - l).toNat,
    (a.drop l.toNat).drop (r + 1 - l).toNat, ?_, ?_, ?_⟩
  · rw [List.append_assoc, List.take_append_drop, List.take_append_drop]
  · rw [List.length_take]
    omega
  · rw [List.length_take, List.length_drop]
    omega

theorem cell_append_window {xs w zs : List α} (hl : (xs.length : Int) = l)
    (hw : (w.length : Int) = r + 1 - l) (hxl : l ≤ x) (hxr : x ≤ r) :
    cell (xs ++ w ++ zs) x = w[(x - l).toNat]? := by
  rw [cell, if_pos (by omega), List.append_assoc, List.getElem?_append_right (by omega),
    List.getElem?_append_left (by omega)]
  congr 1
  omega

theorem Shuffled.window {xs w zs : List α} (h : Shuffled l r (xs ++ w ++ zs) a')
    (hl : (xs.length : Int) = l) (hw : (w.length : Int) = r + 1 - l) :
    ∃ w', a' = xs ++ w' ++ zs ∧ w'.Perm w := by
  have hlen : a'.length = xs.length + w.length + zs.length := by
    rw [h.length_eq, List.length_append, List.length_append]
  have hfront : a'.take xs.length = xs := by
    refine List.ext_getElem? fun n => ?_
    by_cases hn : n < xs.length
    · have hcell := h.outside n (by omega)
      rw [cell_natCast, cell_natCast, List.append_assoc, List.getElem?_append_left hn] at hcell
      rw [List.getElem?_take_of_lt hn, hcell]
    · rw [List.getElem?_eq_none (by rw [List.length_take]; omega), List.getElem?_eq_none (by omega)]
  have hback : a'.drop (xs.length + w.length) = zs := by
    refine List.ext_getElem? fun n => ?_
    have hcell := h.outside ((xs.length + w.length + n : Nat) : Int) (by omega)
    rw [cell_natCast, cell_natCast,
      List.getElem?_append_right (by rw [List.length_append]; omega), List.length_append,
      Nat.add_sub_cancel_left] at hcell
    rw [List.getElem?_drop, hcell]
  have hsplit : a' = xs ++ (a'.drop xs.length).take w.length ++ zs := by
    nth_rewrite 1 [← List.take_append_drop xs.length a']
    rw [hfront, List.append_assoc]
    nth_rewrite 1 [← List.take_append_drop w.length (a'.drop xs.length)]
    rw [List.drop_drop, hback]
  refine ⟨(a'.drop xs.length).take w.length, hsplit, ?_⟩
  have hperm := h.perm
  rw [hsplit] at hperm
  exact (List.perm_append_left_iff xs).mp ((List.perm_append_right_iff zs).mp hperm)

theorem Shuffled.mem (h : Shuffled l r a a') (h0 : 0 ≤ l) (hr : r < a.length)
    (hx : l ≤ x ∧ x ≤ r) (hu : cell a' x = some u) :
    ∃ y, (l ≤ y ∧ y ≤ r) ∧ cell a y = some u := by
  obtain ⟨xs, w, zs, rfl, hl, hw⟩ := exists_window h0 (by omega) hr
  obtain ⟨w', rfl, hperm⟩ := h.window hl hw
  rw [cell_append_window hl (by rw [hperm.length_eq]; exact hw) hx.1 hx.2] at hu
  have hmem : u ∈ w := hperm.mem_iff.mp (List.mem_of_getElem? hu)
  obtain ⟨n, hn, hget⟩ := List.getElem_of_mem hmem
  refine ⟨l + n, ⟨by omega, by omega⟩, ?_⟩
  rw [cell_append_window hl hw (by omega) (by omega)]
  have hidx : (l + n - l).toNat = n := by omega
  rw [hidx, ← hget]
  exact List.getElem?_eq_getElem hn

/-! ## The order of two cells -/

variable {κ : Type} [LinearOrder κ]

/-- `arr[x]` is not above `arr[y]`. -/
def LeAt (key : α → κ) (a : List α) (x y : Int) : Prop :=
  ∀ u v, cell a x = some u → cell a y = some v → key u ≤ key v

def SortedIn (key : α → κ) (a : List α) (l r : Int) : Prop :=
  ∀ x y, l ≤ x → x < y → y ≤ r → LeAt key a x y

variable {key : α → κ} {y z : Int}

theorem leAt_congr (hx : cell a' x = cell a x) (hy : cell a' y = cell a y) :
    LeAt key a' x y ↔ LeAt key a x y := by
  rw [LeAt, LeAt, hx, hy]

theorem LeAt.trans (h : LeAt key a x y) (h' : LeAt key a y z) (h0 : 0 ≤ y) (hy : y < a.length) :
    LeAt key a x z := by
  intro u v hu hv
  obtain ⟨w, hw⟩ := exists_cell h0 hy
  exact le_trans (h u w hu hw) (h' w v hw hv)

theorem LeAt.of_bounds {p : κ} (hx : ∀ u, cell a x = some u → key u ≤ p)
    (hy : ∀ v, cell a y = some v → p ≤ key v) : LeAt key a x y :=
  fun u v hu hv => le_trans (hx u hu) (hy v hv)

theorem SortedIn.of_le (h : r ≤ l) : SortedIn key a l r :=
  fun _ _ _ _ _ => absurd h (by omega)

theorem SortedIn.congr (h : SortedIn key a l r) (hc : ∀ x, l ≤ x → x ≤ r → cell a' x = cell a x) :
    SortedIn key a' l r :=
  fun x y hx hxy hy => (leAt_congr (hc x hx (by omega)) (hc y (by omega) hy)).mpr (h x y hx hxy hy)

theorem SortedIn.pairwise (h : SortedIn key a 0 (a.length - 1)) :
    a.Pairwise fun u v => key u ≤ key v := by
  rw [List.pairwise_iff_getElem]
  intro m n hm hn hmn
  refine h m n (by omega) (by omega) (by omega) _ _ ?_ ?_
  · rw [cell_natCast, List.getElem?_eq_getElem hm]
  · rw [cell_natCast, List.getElem?_eq_getElem hn]

theorem sortedIn_window {xs w zs : List α} (hl : (xs.length : Int) = l)
    (hw : (w.length : Int) = r + 1 - l) (hp : w.Pairwise fun u v => key u ≤ key v) :
    SortedIn key (xs ++ w ++ zs) l r := by
  intro x y hx hxy hy u v hu hv
  rw [cell_append_window hl hw hx (by omega)] at hu
  rw [cell_append_window hl hw (by omega) hy] at hv
  obtain ⟨hm, rfl⟩ := List.getElem?_eq_some_iff.mp hu
  obtain ⟨hn, rfl⟩ := List.getElem?_eq_some_iff.mp hv
  exact List.pairwise_iff_getElem.mp hp _ _ hm hn (by omega)

theorem shuffled_window {xs w w' zs : List α} (hl : (xs.length : Int) = l)
    (hw : (w.length : Int) = r + 1 - l) (hp : w'.Perm w) :
    Shuffled l r (xs ++ w ++ zs) (xs ++ w' ++ zs) := by
  refine ⟨(hp.append_left xs).append_right zs, fun x hx => ?_⟩
  by_cases h0 : 0 ≤ x
  · rw [cell, if_pos h0, cell, if_pos h0]
    by_cases hfront : x < l
    · rw [List.append_assoc, List.append_assoc, List.getElem?_append_left (by omega),
        List.getElem?_append_left (by omega)]
    · have hlen := hp.length_eq
      rw [List.getElem?_append_right (by rw [List.length_append]; omega),
        List.getElem?_append_right (by rw [List.length_append]; omega), List.length_append,
        List.length_append, hlen]
  · rw [cell, if_neg h0, cell, if_neg h0]

theorem onWindow_sorts {f : List α → Option (List α)} (h0 : 0 ≤ l) (hlr : l ≤ r + 1) (hr : r < a.length)
    (hf : ∀ w, (w.length : Int) = r + 1 - l →
      ∃ w', f w = some w' ∧ w'.Perm w ∧ w'.Pairwise fun u v => key u ≤ key v) :
    ∃ a', onWindow a l.toNat (r + 1 - l).toNat f = some a' ∧ Shuffled l r a a' ∧ SortedIn key a' l r := by
  obtain ⟨xs, w, zs, rfl, hxs, hw⟩ := exists_window h0 hlr hr
  obtain ⟨w', hrun, hperm, hsorted⟩ := hf w hw
  have hlen : (w'.length : Int) = r + 1 - l := by rw [hperm.length_eq, hw]
  exact ⟨xs ++ w' ++ zs, onWindow_append (by omega) (by omega) hrun hperm.length_eq,
    shuffled_window hxs hw hperm, sortedIn_window hxs hlen hsorted⟩

end Montauk.Sort
