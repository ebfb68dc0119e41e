import Mathlib.Algebra.Order.Ring.Int
import Mathlib.Data.Fintype.Perm
import Mathlib.Data.List.Lex
import Mathlib.Data.List.NodupEquivFin
import Mathlib.Data.List.Perm.Basic
import Mathlib.Data.List.TakeWhile
import Montauk.Machine.Enumerate

/-!
# Stepping through the orders of a list

`nextPermutation` gives the next order of a list's elements in the lexicographic
sense, as the standard library's function of this name does: behind the last
place where it can, an order goes up to the next larger element and is ascending
from there.

The orders of an ascending list split by their first element. The successor
respects the split, so it walks the list of all of them (`walks_orders`), which
is ascending (`pairwise_orders`) and has each order once (`mem_orders`). The
orders of the first `n` numbers are the permutations of `Fin n`
(`countP_orders`).
-/

namespace Montauk.Permutations

open Montauk.Enumerate

universe u
variable {α : Type u} [LinearOrder α]

/-- `std::next_permutation`: the next order, or none behind the last one. -/
def nextPermutation : List α → Option (List α)
  | [] => none
  | x :: s =>
      match nextPermutation s with
      | some s' => some (x :: s')
      | none =>
          -- `s` descends, so backwards it is in order
          match s.reverse.dropWhile (· ≤ x) with
          | [] => none
          | y :: t => some (y :: (s.reverse.takeWhile (· ≤ x) ++ x :: t))

/-- The orders of the `n` elements of a list, by their first element. -/
def orders : Nat → List α → List (List α)
  | 0, _ => [[]]
  | n + 1, l => l.flatMap fun x => (orders n (l.erase x)).map (x :: ·)

variable {n : Nat} {l p : List α} {x : α}

/-! ## Each order once -/

theorem mem_orders (h : l.length = n) : p ∈ orders n l ↔ p.Perm l := by
  induction n generalizing l p with
  | zero => rw [List.eq_nil_of_length_eq_zero h, orders, List.mem_singleton, List.perm_nil]
  | succ n ih =>
      rw [orders, List.mem_flatMap]
      have herase : ∀ x ∈ l, (l.erase x).length = n := by
        intro x hx
        rw [List.length_erase_of_mem hx, h, Nat.add_sub_cancel]
      constructor
      · rintro ⟨x, hx, hp⟩
        obtain ⟨q, hq, rfl⟩ := List.mem_map.mp hp
        exact List.cons_perm_iff_perm_erase.mpr ⟨hx, (ih (herase x hx)).mp hq⟩
      · intro hp
        cases p with
        | nil => exact absurd (hp.length_eq.trans h) nofun
        | cons x q =>
            obtain ⟨hx, hq⟩ := List.cons_perm_iff_perm_erase.mp hp
            exact ⟨x, hx, List.mem_map.mpr ⟨q, (ih (herase x hx)).mpr hq, rfl⟩⟩

theorem length_orders (h : l.length = n) : (orders n l).length = n.factorial := by
  induction n generalizing l with
  | zero => rfl
  | succ n ih =>
      have hblock : ∀ x ∈ l, ((orders n (l.erase x)).map (x :: ·)).length = n.factorial := by
        intro x hx
        rw [List.length_map, ih (by rw [List.length_erase_of_mem hx, h, Nat.add_sub_cancel])]
      rw [orders, List.length_flatMap, List.map_congr_left hblock, List.map_const', List.sum_replicate_nat, h,
        Nat.factorial_succ]

/-! ## The walk -/

theorem exists_orders_cons (h : l.length = n) : ∃ rest, orders n l = l :: rest := by
  induction n generalizing l with
  | zero => exact ⟨[], by rw [List.eq_nil_of_length_eq_zero h, orders]⟩
  | succ n ih =>
      cases l with
      | nil => exact absurd h nofun
      | cons x s =>
          obtain ⟨rest, hrest⟩ := ih (Nat.succ.inj h)
          rw [orders, List.flatMap_cons, List.erase_cons_head, hrest]
          exact ⟨_, rfl⟩

theorem reverse_pairwise_of_none {s : List α} (h : nextPermutation s = none) : s.reverse.Pairwise (· ≤ ·) := by
  induction s with
  | nil => exact List.Pairwise.nil
  | cons x s ih =>
      rw [nextPermutation] at h
      split at h
      · exact absurd h nofun
      · rename_i hnone
        split at h
        · rename_i hdrop
          rw [List.reverse_cons, List.pairwise_append]
          refine ⟨ih hnone, List.pairwise_singleton _ _, fun y hy z hz => ?_⟩
          rw [List.mem_singleton.mp hz]
          exact of_decide_eq_true (List.dropWhile_eq_nil_iff.mp hdrop y hy)
        · exact absurd h nofun

theorem nextPermutation_reverse {s : List α} (h : s.Pairwise (· < ·)) : nextPermutation s.reverse = none := by
  induction s using List.reverseRecOn with
  | nil => rfl
  | append_singleton s x ih =>
      obtain ⟨hs, -, hx⟩ := List.pairwise_append.mp h
      have hdrop : s.dropWhile (· ≤ x) = [] :=
        List.dropWhile_eq_nil_iff.mpr fun y hy => decide_eq_true (hx y hy x List.mem_cons_self).le
      rw [List.reverse_append, List.reverse_singleton, List.singleton_append, nextPermutation, ih hs]
      simp only [List.reverse_reverse, hdrop]

/-- The last order that begins with `x` is followed by the first one that
begins with the next element. -/
theorem nextPermutation_block {pre post : List α} (h : (pre ++ x :: post).Pairwise (· < ·)) :
    nextPermutation (x :: (pre ++ post).reverse) = post.head?.map fun y => y :: (pre ++ x :: post.tail) := by
  obtain ⟨hpre, hpost, hacross⟩ := List.pairwise_append.mp h
  obtain ⟨hxpost, hpost⟩ := List.pairwise_cons.mp hpost
  have hrest : (pre ++ post).Pairwise (· < ·) :=
    List.pairwise_append.mpr ⟨hpre, hpost, fun a ha b hb => hacross a ha b (List.mem_cons_of_mem _ hb)⟩
  have hle : ∀ a ∈ pre, decide (a ≤ x) = true := fun a ha =>
    decide_eq_true (hacross a ha x List.mem_cons_self).le
  rw [nextPermutation, nextPermutation_reverse hrest]
  simp only [List.reverse_reverse, List.dropWhile_append_of_pos hle, List.takeWhile_append_of_pos hle]
  cases post with
  | nil => rfl
  | cons y t =>
      have hy : decide (y ≤ x) = false := decide_eq_false (hxpost y List.mem_cons_self).not_ge
      simp only [List.dropWhile_cons, List.takeWhile_cons, hy, Bool.false_eq_true, if_false, List.append_nil,
        List.head?_cons, Option.map_some, List.tail_cons]

theorem walks_block {pre post : List α} (hl : (pre ++ x :: post).Pairwise (· < ·))
    (hn : (pre ++ post).length = n) (hwalk : Walks nextPermutation none (orders n (pre ++ post))) :
    Walks nextPermutation (post.head?.map fun y => y :: (pre ++ x :: post.tail))
      ((orders n (pre ++ post)).map (x :: ·)) := by
  refine hwalk.map (x :: ·) (fun a b _ hab => ?_) fun a ha hnone => ?_
  · rw [nextPermutation, hab]
  · have hsorted : (pre ++ post).Pairwise (· < ·) :=
      hl.sublist (List.Sublist.append_left (List.sublist_cons_self x post) pre)
    have hperm : (pre ++ post).Perm a.reverse :=
      ((mem_orders hn).mp ha).symm.trans (List.reverse_perm a).symm
    have hrev : pre ++ post = a.reverse :=
      hperm.eq_of_pairwise (fun _ _ _ _ => le_antisymm) (hsorted.imp le_of_lt) (reverse_pairwise_of_none hnone)
    rw [← List.reverse_reverse a, ← hrev, nextPermutation_block hl]

/-- **The successor walks all orders**, from the ascending one on. -/
theorem walks_orders (hl : l.Pairwise (· < ·)) (hn : l.length = n) : Walks nextPermutation none (orders n l) := by
  induction n generalizing l with
  | zero => exact .last rfl
  | succ n ih =>
      -- the blocks from `x` on
      have hblocks : ∀ post pre x, l = pre ++ x :: post →
          Walks nextPermutation none ((x :: post).flatMap fun x => (orders n (l.erase x)).map (x :: ·)) := by
        intro post
        induction post with
        | nil =>
            intro pre x hsplit
            subst hsplit
            have hx : x ∉ pre := fun hmem =>
              lt_irrefl x ((List.pairwise_append.mp hl).2.2 x hmem x List.mem_cons_self)
            have hlen : (pre ++ []).length = n := by
              rw [List.length_append, List.length_cons] at hn
              rw [List.length_append]
              omega
            have hblock := walks_block hl hlen
              (ih (hl.sublist (List.Sublist.append_left (List.nil_sublist _) pre)) hlen)
            rw [List.flatMap_singleton, List.erase_append_right _ hx, List.erase_cons_head]
            exact hblock
        | cons y t iht =>
            intro pre x hsplit
            have hnext := iht (pre ++ [x]) y (by rw [hsplit, List.append_assoc, List.singleton_append])
            subst hsplit
            have hacross := (List.pairwise_append.mp hl).2.2
            have hxy : x < y := (List.pairwise_cons.mp (List.pairwise_append.mp hl).2.1).1 y List.mem_cons_self
            have hx : x ∉ pre := fun hmem => lt_irrefl x (hacross x hmem x List.mem_cons_self)
            have hy : y ∉ pre := fun hmem =>
              lt_irrefl y (hacross y hmem y (List.mem_cons_of_mem _ List.mem_cons_self))
            have hlen : (pre ++ y :: t).length = n := by
              rw [List.length_append, List.length_cons] at hn
              rw [List.length_append]
              omega
            have hblock := walks_block hl hlen
              (ih (hl.sublist (List.Sublist.append_left (List.sublist_cons_self _ _) pre)) hlen)
            have herase : (pre ++ x :: y :: t).erase y = pre ++ x :: t := by
              rw [List.erase_append_right _ hy, List.erase_cons_tail (by simpa using hxy.ne), List.erase_cons_head]
            -- the next block begins with `y` and the ascending rest
            obtain ⟨rest, hrest⟩ := exists_orders_cons (n := n) (l := pre ++ x :: t)
              (by rw [← hlen, List.length_append, List.length_append, List.length_cons, List.length_cons])
            rw [List.flatMap_cons, herase, hrest, List.map_cons, List.cons_append] at hnext
            rw [List.flatMap_cons, List.flatMap_cons, List.erase_append_right _ hx, List.erase_cons_head, herase,
              hrest, List.map_cons, List.cons_append]
            exact hblock.append hnext
      rw [orders]
      cases l with
      | nil => exact absurd hn nofun
      | cons x s => exact hblocks s [] x rfl

/-! ## Permutations of `Fin n` -/

def valuesOf (σ : Equiv.Perm (Fin n)) : List Nat := List.ofFn fun i => (σ i : Nat)

theorem length_valuesOf (σ : Equiv.Perm (Fin n)) : (valuesOf σ).length = n := List.length_ofFn

theorem getD_valuesOf (σ : Equiv.Perm (Fin n)) (i : Fin n) : (valuesOf σ).getD i 0 = σ i := by
  rw [valuesOf, List.getD_eq_getElem _ _ (by rw [List.length_ofFn]; exact i.isLt), List.getElem_ofFn]

theorem valuesOf_injective : Function.Injective (valuesOf (n := n)) := by
  intro σ τ h
  refine Equiv.ext fun i => Fin.ext ?_
  rw [← getD_valuesOf, h, getD_valuesOf]

theorem valuesOf_one : valuesOf (1 : Equiv.Perm (Fin n)) = List.range n := by
  refine List.ext_getElem (by rw [length_valuesOf, List.length_range]) fun i h h' => ?_
  rw [List.getElem_range]
  exact List.getElem_ofFn h

theorem valuesOf_mem_orders (σ : Equiv.Perm (Fin n)) : valuesOf σ ∈ orders n (List.range n) := by
  have hnodup : (valuesOf σ).Nodup := List.nodup_ofFn.mpr fun i j h => σ.injective (Fin.ext h)
  have hsub : valuesOf σ ⊆ List.range n := by
    intro v hv
    obtain ⟨i, rfl⟩ := List.mem_ofFn.mp hv
    exact List.mem_range.mpr (σ i).isLt
  refine (mem_orders List.length_range).mpr ?_
  exact (List.subperm_of_subset hnodup hsub).perm_of_length_le (by rw [length_valuesOf, List.length_range])

/-- **Counting along the walk** is counting permutations. -/
theorem countP_orders (P : List Nat → Prop) [DecidablePred P] :
    (orders n (List.range n)).countP P = (Finset.univ.filter fun σ : Equiv.Perm (Fin n) => P (valuesOf σ)).card := by
  have hnodup : ((Finset.univ : Finset (Equiv.Perm (Fin n))).toList.map valuesOf).Nodup :=
    (Finset.nodup_toList _).map valuesOf_injective
  have hperm : ((Finset.univ : Finset (Equiv.Perm (Fin n))).toList.map valuesOf).Perm (orders n (List.range n)) := by
    refine (List.subperm_of_subset hnodup fun p hp => ?_).perm_of_length_le ?_
    · obtain ⟨σ, -, rfl⟩ := List.mem_map.mp hp
      exact valuesOf_mem_orders σ
    · rw [length_orders List.length_range, List.length_map, Finset.length_toList, Finset.card_univ,
        Fintype.card_perm, Fintype.card_fin]
  rw [← hperm.countP_eq, List.countP_map, List.countP_eq_length_filter, ← List.toFinset_card_of_nodup
    ((Finset.nodup_toList _).filter _)]
  congr 1
  ext σ
  simp

end Montauk.Permutations
