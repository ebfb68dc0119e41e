import Mathlib.Data.List.Count
import Mathlib.Data.List.Induction
import Mathlib.Order.Lattice

/-!
# Stable sorts by a key

`StableSort key a b` says that `b` is `a` sorted by `key`, equal keys in the
order `a` has them. It is stated by filters: for every key, the elements with
that key are the same list in both. A list has at most one stable sort
(`StableSort.unique`).

Below that, the ways the sorts in this directory put one together: appending
sorted pieces, inserting behind the last smaller element, reversing a strictly
descending run, merging. Merging is `List.merge`; the equations
`mergeBy_append_left`, `mergeBy_append_right`, `mergeBy_concat_left` and
`mergeBy_concat_right` say what a merge that copies whole runs, from the front
or from the back, may do in one step.
-/

namespace Montauk.Sort

variable {α κ : Type*} [LinearOrder κ] {key : α → κ}

def Ascending (key : α → κ) (xs : List α) : Prop := xs.Pairwise fun a b => key a ≤ key b

def ofKey (key : α → κ) (k : κ) (xs : List α) : List α := xs.filter fun a => key a = k

@[simp] theorem ofKey_nil (k : κ) : ofKey key k [] = [] := rfl

theorem ofKey_append (k : κ) (xs ys : List α) :
    ofKey key k (xs ++ ys) = ofKey key k xs ++ ofKey key k ys :=
  List.filter_append ..

theorem ofKey_cons_self (x : α) (xs : List α) :
    ofKey key (key x) (x :: xs) = x :: ofKey key (key x) xs :=
  List.filter_cons_of_pos (by simp)

theorem ofKey_cons_ne {k : κ} {x : α} (h : key x ≠ k) (xs : List α) :
    ofKey key k (x :: xs) = ofKey key k xs :=
  List.filter_cons_of_neg (by simpa using h)

theorem ofKey_eq_nil {k : κ} {xs : List α} (h : ∀ x ∈ xs, key x ≠ k) : ofKey key k xs = [] := by
  rw [ofKey, List.filter_eq_nil_iff]
  intro x hx
  simpa using h x hx

/-- `b` is a rearrangement of `a` that keeps equal keys in order. -/
def SameOrder (key : α → κ) (a b : List α) : Prop := ∀ k, ofKey key k b = ofKey key k a

/-- `b` is the stable sort of `a` by `key`. -/
structure StableSort (key : α → κ) (a b : List α) : Prop where
  sorted : Ascending key b
  stable : SameOrder key a b

theorem SameOrder.trans {a b c : List α} (h : SameOrder key a b) (h' : SameOrder key b c) :
    SameOrder key a c :=
  fun k => (h' k).trans (h k)

theorem SameOrder.replace {a pre w w' post : List α} (h : SameOrder key a (pre ++ w ++ post))
    (hw : SameOrder key w w') : SameOrder key a (pre ++ w' ++ post) := by
  intro k
  rw [← h k]
  simp only [ofKey_append]
  rw [hw k]

theorem SameOrder.perm {a b : List α} (h : SameOrder key a b) : b.Perm a := by
  classical
  rw [List.perm_iff_count]
  intro x
  have hcount : ∀ xs : List α, List.count x (ofKey key (key x) xs) = List.count x xs :=
    fun xs => List.count_filter (by simp)
  rw [← hcount b, h, hcount]

/-- Two ascending lists with the same elements for each key are the same. -/
theorem Ascending.eq_of_ofKey {xs ys : List α} (hx : Ascending key xs) (hy : Ascending key ys)
    (h : ∀ k, ofKey key k xs = ofKey key k ys) : xs = ys := by
  induction xs generalizing ys with
  | nil =>
      cases ys with
      | nil => rfl
      | cons y ys =>
          have hcons := h (key y)
          rw [ofKey_cons_self] at hcons
          cases hcons
  | cons x xs ih =>
      cases ys with
      | nil =>
          have hcons := h (key x)
          rw [ofKey_cons_self] at hcons
          cases hcons
      | cons y ys =>
          have hxs := List.pairwise_cons.mp hx
          have hys := List.pairwise_cons.mp hy
          have hle : ∀ {z : α} {zs : List α} {w : α}, (∀ v ∈ zs, key z ≤ key v) →
              w ∈ ofKey key (key w) (z :: zs) → key z ≤ key w := by
            intro z zs w hall hw
            rcases List.mem_cons.mp (List.mem_filter.mp hw).1 with rfl | hmem
            · exact le_rfl
            · exact hall w hmem
          have hxy : key y ≤ key x := by
            refine hle hys.1 ?_
            rw [← h, ofKey_cons_self]
            exact List.mem_cons_self
          have hyx : key x ≤ key y := by
            refine hle hxs.1 ?_
            rw [h, ofKey_cons_self]
            exact List.mem_cons_self
          have hkey : key y = key x := le_antisymm hxy hyx
          have hhead := h (key x)
          rw [ofKey_cons_self, ← hkey, ofKey_cons_self, List.cons.injEq] at hhead
          obtain ⟨rfl, -⟩ := hhead
          congr 1
          refine ih hxs.2 hys.2 fun k => ?_
          by_cases hk : key x = k
          · subst hk
            have htail := h (key x)
            rw [ofKey_cons_self, ofKey_cons_self] at htail
            exact (List.cons.inj htail).2
          · have htail := h k
            rwa [ofKey_cons_ne hk, ofKey_cons_ne hk] at htail

theorem StableSort.unique {a b b' : List α} (h : StableSort key a b) (h' : StableSort key a b') :
    b = b' :=
  h.sorted.eq_of_ofKey h'.sorted fun k => (h.stable k).trans (h'.stable k).symm

theorem StableSort.perm {a b : List α} (h : StableSort key a b) : b.Perm a := h.stable.perm

theorem StableSort.length_eq {a b : List α} (h : StableSort key a b) : b.length = a.length :=
  h.perm.length_eq

theorem StableSort.refl {a : List α} (h : Ascending key a) : StableSort key a a :=
  ⟨h, fun _ => rfl⟩

theorem StableSort.map {β : Type*} {key' : β → κ} {g : α → β} {a b : List α} (h : StableSort key a b)
    (hg : ∀ x ∈ a, key' (g x) = key x) : StableSort key' (a.map g) (b.map g) := by
  have hmem : ∀ x ∈ b, x ∈ a := fun x hx => h.stable.perm.mem_iff.mp hx
  have hof : ∀ (k : κ) (xs : List α), (∀ x ∈ xs, x ∈ a) →
      ofKey key' k (xs.map g) = (ofKey key k xs).map g := by
    intro k xs hxs
    rw [ofKey, ofKey, List.filter_map]
    refine congrArg (List.map g) (List.filter_congr fun x hx => ?_)
    rw [Function.comp_apply, hg x (hxs x hx)]
  refine ⟨List.pairwise_map.mpr (h.sorted.imp_of_mem fun hx hy hxy => ?_), fun k => ?_⟩
  · rwa [hg _ (hmem _ hx), hg _ (hmem _ hy)]
  · rw [hof k b hmem, hof k a fun _ hx => hx, h.stable]

theorem pairwise_ofKey_iff {κ' : Type*} [LinearOrder κ'] {fine : α → κ'} {xs : List α} :
    (xs.Pairwise fun x y => key x = key y → fine x ≤ fine y) ↔ ∀ k, Ascending fine (ofKey key k xs) := by
  constructor
  · intro h k
    refine (h.filter _).imp_of_mem fun hx hy hxy => hxy ?_
    rw [of_decide_eq_true (List.mem_filter.mp hx).2, of_decide_eq_true (List.mem_filter.mp hy).2]
  · intro h
    induction xs with
    | nil => exact List.Pairwise.nil
    | cons x xs ih =>
        refine List.pairwise_cons.mpr ⟨fun y hy hkey => ?_, ih fun k => ?_⟩
        · have hx := h (key x)
          rw [ofKey_cons_self] at hx
          exact (List.pairwise_cons.mp hx).1 y (List.mem_filter.mpr ⟨hy, decide_eq_true hkey.symm⟩)
        · exact (h k).sublist ((List.sublist_cons_self x xs).filter _)

/-- A stable sort by a finer key is one by the coarser key exactly if the
elements the coarser key does not tell apart stood in the finer order. -/
theorem StableSort.coarsen_iff {κ' : Type*} [LinearOrder κ'] {fine : α → κ'} {a b : List α}
    (h : StableSort fine a b) (hmono : ∀ x y, fine x ≤ fine y → key x ≤ key y) :
    StableSort key a b ↔ a.Pairwise fun x y => key x = key y → fine x ≤ fine y := by
  rw [pairwise_ofKey_iff]
  constructor
  · intro h' k
    rw [← h'.stable k]
    exact h.sorted.filter _
  · intro ha
    refine ⟨h.sorted.imp fun hxy => hmono _ _ hxy, fun k => ?_⟩
    refine Ascending.eq_of_ofKey (h.sorted.filter _) (ha k) fun f => ?_
    have hcomm : ∀ xs : List α, ofKey fine f (ofKey key k xs) = ofKey key k (ofKey fine f xs) := by
      intro xs
      rw [ofKey, ofKey, ofKey, ofKey, List.filter_filter, List.filter_filter]
      exact List.filter_congr fun x _ => Bool.and_comm _ _
    rw [hcomm, hcomm, h.stable f]

theorem StableSort.coarsen_pairwise {κ' : Type*} [LinearOrder κ'] {fine : α → κ'} {R : α → α → Prop} {a b : List α}
    (h : StableSort fine a b) (hmono : ∀ x y, fine x ≤ fine y → key x ≤ key y)
    (htie : ∀ x y, (key x = key y → fine x ≤ fine y) ↔ R x y) : StableSort key a b ↔ a.Pairwise R := by
  rw [h.coarsen_iff hmono]
  exact ⟨List.Pairwise.imp fun hxy => (htie _ _).mp hxy, List.Pairwise.imp fun hxy => (htie _ _).mpr hxy⟩

theorem StableSort.of_append {a a' b b' c : List α} (h : StableSort key a b)
    (h' : StableSort key a' b') (hc : StableSort key (b ++ b') c) : StableSort key (a ++ a') c := by
  refine ⟨hc.sorted, fun k => ?_⟩
  rw [hc.stable, ofKey_append, ofKey_append, h.stable, h'.stable]

/-! ## Ascending lists -/

theorem Ascending.append {xs ys : List α} (hx : Ascending key xs) (hy : Ascending key ys)
    (h : ∀ x ∈ xs, ∀ y ∈ ys, key x ≤ key y) : Ascending key (xs ++ ys) :=
  List.pairwise_append.mpr ⟨hx, hy, h⟩

theorem Ascending.left {xs ys : List α} (h : Ascending key (xs ++ ys)) : Ascending key xs :=
  (List.pairwise_append.mp h).1

theorem Ascending.right {xs ys : List α} (h : Ascending key (xs ++ ys)) : Ascending key ys :=
  (List.pairwise_append.mp h).2.1

theorem Ascending.across {xs ys : List α} (h : Ascending key (xs ++ ys)) :
    ∀ x ∈ xs, ∀ y ∈ ys, key x ≤ key y :=
  (List.pairwise_append.mp h).2.2

theorem Ascending.head_le {x : α} {xs : List α} (h : Ascending key (x :: xs)) :
    ∀ y ∈ x :: xs, key x ≤ key y := by
  intro y hy
  rcases List.mem_cons.mp hy with rfl | hy
  · exact le_rfl
  · exact (List.pairwise_cons.mp h).1 y hy

theorem Ascending.le_last {x : α} {xs : List α} (h : Ascending key (xs ++ [x])) :
    ∀ y ∈ xs ++ [x], key y ≤ key x := by
  intro y hy
  rcases List.mem_append.mp hy with hy | hy
  · exact h.across y hy x (List.mem_singleton.mpr rfl)
  · rw [List.mem_singleton.mp hy]

theorem StableSort.insert {xs ys : List α} {x : α} (h : Ascending key (xs ++ ys))
    (hx : ∀ z ∈ xs, key z ≤ key x) (hy : ∀ z ∈ ys, key x < key z) :
    StableSort key (xs ++ ys ++ [x]) (xs ++ x :: ys) := by
  constructor
  · refine h.left.append (List.pairwise_cons.mpr ⟨fun y hm => (hy y hm).le, h.right⟩) ?_
    intro z hz y hm
    rcases List.mem_cons.mp hm with rfl | hm
    · exact hx z hz
    · exact h.across z hz y hm
  · intro k
    rw [ofKey_append, ofKey_append, ofKey_append, List.append_assoc]
    by_cases hk : key x = k
    · subst hk
      rw [ofKey_cons_self, ofKey_cons_self, ofKey_eq_nil fun z hz => (hy z hz).ne']
      rfl
    · rw [ofKey_cons_ne hk, ofKey_cons_ne hk, ofKey_nil, List.append_nil]

theorem StableSort.reverse {xs : List α} (h : xs.Pairwise fun a b => key b < key a) :
    StableSort key xs xs.reverse := by
  refine ⟨List.pairwise_reverse.mpr (h.imp fun hab => hab.le), fun k => ?_⟩
  induction xs with
  | nil => rfl
  | cons x xs ih =>
      obtain ⟨hx, hxs⟩ := List.pairwise_cons.mp h
      rw [List.reverse_cons, ofKey_append, ih hxs]
      by_cases hk : key x = k
      · subst hk
        rw [ofKey_cons_self, ofKey_cons_self, ofKey_eq_nil fun y hy => (hx y hy).ne]
        rfl
      · rw [ofKey_cons_ne hk, ofKey_cons_ne hk, ofKey_nil, List.append_nil]

/-! ## Merging -/

def mergeBy (key : α → κ) (xs ys : List α) : List α := xs.merge ys fun a b => key a ≤ key b

@[simp] theorem mergeBy_nil_left (ys : List α) : mergeBy key [] ys = ys := List.nil_merge ..

@[simp] theorem mergeBy_nil_right (xs : List α) : mergeBy key xs [] = xs := List.merge_right ..

theorem mergeBy_cons_le {x y : α} (h : key x ≤ key y) (xs ys : List α) :
    mergeBy key (x :: xs) (y :: ys) = x :: mergeBy key xs (y :: ys) := by
  rw [mergeBy, List.cons_merge_cons, if_pos (by simpa using h)]
  rfl

theorem mergeBy_cons_lt {x y : α} (h : key y < key x) (xs ys : List α) :
    mergeBy key (x :: xs) (y :: ys) = y :: mergeBy key (x :: xs) ys := by
  rw [mergeBy, List.cons_merge_cons, if_neg (by simpa using h)]
  rfl

@[simp] theorem length_mergeBy (xs ys : List α) :
    (mergeBy key xs ys).length = xs.length + ys.length := by
  rw [mergeBy, List.length_merge]

/-- Elements of the left list that are not larger than the right list's first
are copied. -/
theorem mergeBy_append_left {xs xs' : List α} {y : α} {ys : List α}
    (h : ∀ x ∈ xs, key x ≤ key y) :
    mergeBy key (xs ++ xs') (y :: ys) = xs ++ mergeBy key xs' (y :: ys) := by
  induction xs with
  | nil => rfl
  | cons x xs ih =>
      rw [List.cons_append, mergeBy_cons_le (h x List.mem_cons_self),
        ih fun z hz => h z (List.mem_cons_of_mem _ hz)]
      rfl

/-- Elements of the right list that are smaller than the left list's first are
copied. -/
theorem mergeBy_append_right {x : α} {xs ys ys' : List α} (h : ∀ y ∈ ys, key y < key x) :
    mergeBy key (x :: xs) (ys ++ ys') = ys ++ mergeBy key (x :: xs) ys' := by
  induction ys with
  | nil => rfl
  | cons y ys ih =>
      rw [List.cons_append, mergeBy_cons_lt (h y List.mem_cons_self),
        ih fun z hz => h z (List.mem_cons_of_mem _ hz)]
      rfl

/-- A last left element larger than the whole right list comes last. -/
theorem mergeBy_concat_left {xs ys : List α} {x : α} (h : ∀ y ∈ ys, key y < key x) :
    mergeBy key (xs ++ [x]) ys = mergeBy key xs ys ++ [x] := by
  induction xs generalizing ys with
  | nil =>
      have hcopy : mergeBy key [x] (ys ++ []) = ys ++ mergeBy key [x] [] := mergeBy_append_right h
      rw [List.append_nil, mergeBy_nil_right] at hcopy
      rw [List.nil_append, hcopy, mergeBy_nil_left]
  | cons z xs ihx =>
      induction ys with
      | nil => rw [mergeBy_nil_right, mergeBy_nil_right]
      | cons y ys ihy =>
          have hys : ∀ w ∈ ys, key w < key x := fun w hw => h w (List.mem_cons_of_mem _ hw)
          rcases le_or_gt (key z) (key y) with hzy | hyz
          · rw [List.cons_append, mergeBy_cons_le hzy, mergeBy_cons_le hzy, ihx h]
            rfl
          · rw [mergeBy_cons_lt hyz, List.cons_append, mergeBy_cons_lt hyz, List.cons_append,
              ← List.cons_append, ihy hys]

/-- A last right element no smaller than the whole left list comes last. -/
theorem mergeBy_concat_right {xs ys : List α} {y : α} (h : ∀ x ∈ xs, key x ≤ key y) :
    mergeBy key xs (ys ++ [y]) = mergeBy key xs ys ++ [y] := by
  induction ys generalizing xs with
  | nil =>
      have hcopy : mergeBy key (xs ++ []) [y] = xs ++ mergeBy key [] [y] := mergeBy_append_left h
      rw [List.append_nil, mergeBy_nil_left] at hcopy
      rw [List.nil_append, hcopy, mergeBy_nil_right]
  | cons z ys ihy =>
      induction xs with
      | nil => rw [mergeBy_nil_left, mergeBy_nil_left]
      | cons x xs ihx =>
          have hxs : ∀ w ∈ xs, key w ≤ key y := fun w hw => h w (List.mem_cons_of_mem _ hw)
          rcases le_or_gt (key x) (key z) with hxz | hzx
          · rw [List.cons_append, mergeBy_cons_le hxz, mergeBy_cons_le hxz, List.cons_append,
              ← List.cons_append, ihx hxs]
          · rw [List.cons_append, mergeBy_cons_lt hzx, mergeBy_cons_lt hzx, ihy h]
            rfl

theorem mergeBy_append_left_of_lt {xs xs' ys : List α}
    (h : ∀ x ∈ xs', ∀ y ∈ ys, key y < key x) :
    mergeBy key (xs ++ xs') ys = mergeBy key xs ys ++ xs' := by
  induction xs' using List.reverseRecOn with
  | nil => rw [List.append_nil, List.append_nil]
  | append_singleton xs' x ih =>
      have hx : ∀ y ∈ ys, key y < key x := h x (by simp)
      have hxs : ∀ z ∈ xs', ∀ y ∈ ys, key y < key z := fun z hz => h z (by simp [hz])
      rw [← List.append_assoc, mergeBy_concat_left hx, ih hxs, List.append_assoc]

theorem mergeBy_append_right_of_le {xs ys ys' : List α}
    (h : ∀ x ∈ xs, ∀ y ∈ ys', key x ≤ key y) :
    mergeBy key xs (ys ++ ys') = mergeBy key xs ys ++ ys' := by
  induction ys' using List.reverseRecOn with
  | nil => rw [List.append_nil, List.append_nil]
  | append_singleton ys' y ih =>
      have hy : ∀ x ∈ xs, key x ≤ key y := fun x hx => h x hx y (by simp)
      have hys : ∀ x ∈ xs, ∀ z ∈ ys', key x ≤ key z := fun x hx z hz => h x hx z (by simp [hz])
      rw [← List.append_assoc, mergeBy_concat_right hy, ih hys, List.append_assoc]

theorem Ascending.mergeBy {xs ys : List α} (hx : Ascending key xs) (hy : Ascending key ys) :
    Ascending key (mergeBy key xs ys) := by
  have h : (List.merge xs ys fun a b => decide (key a ≤ key b)).Pairwise
      fun a b => decide (key a ≤ key b) = true :=
    List.pairwise_merge (by simpa using fun a b c => le_trans) (by simpa using fun a b => le_total _ _)
      xs ys (hx.imp (by simp)) (hy.imp (by simp))
  exact h.imp (by simp)

/-- A merge keeps the elements of each key in order, the left list's first. -/
theorem ofKey_mergeBy (k : κ) {xs ys : List α} (hx : Ascending key xs) :
    ofKey key k (mergeBy key xs ys) = ofKey key k xs ++ ofKey key k ys := by
  induction xs generalizing ys with
  | nil => rw [mergeBy_nil_left, ofKey_nil, List.nil_append]
  | cons x xs ihx =>
      induction ys with
      | nil => rw [mergeBy_nil_right, ofKey_nil, List.append_nil]
      | cons y ys ihy =>
          rcases le_or_gt (key x) (key y) with hxy | hyx
          · rw [mergeBy_cons_le hxy]
            by_cases hk : key x = k
            · subst hk
              rw [ofKey_cons_self, ofKey_cons_self, ihx (List.pairwise_cons.mp hx).2]
              rfl
            · rw [ofKey_cons_ne hk, ofKey_cons_ne hk, ihx (List.pairwise_cons.mp hx).2]
          · rw [mergeBy_cons_lt hyx]
            by_cases hk : key y = k
            · subst hk
              have hnone : ofKey key (key y) (x :: xs) = [] :=
                ofKey_eq_nil fun z hz => (hyx.trans_le (hx.head_le z hz)).ne'
              rw [ofKey_cons_self, ofKey_cons_self, ihy, hnone]
              rfl
            · rw [ofKey_cons_ne hk, ofKey_cons_ne hk, ihy]

theorem StableSort.mergeBy {a b xs ys : List α} (hx : StableSort key a xs)
    (hy : StableSort key b ys) : StableSort key (a ++ b) (mergeBy key xs ys) := by
  refine ⟨hx.sorted.mergeBy hy.sorted, fun k => ?_⟩
  rw [ofKey_mergeBy k hx.sorted, ofKey_append, hx.stable, hy.stable]

theorem stableSort_short {κ : Type*} [LinearOrder κ] (key : α → κ) {arr : List α}
    (h : arr.length < 2) : StableSort key arr arr := by
  refine .refl ?_
  cases arr with
  | nil => exact List.Pairwise.nil
  | cons x arr =>
      rw [List.length_cons] at h
      rw [List.eq_nil_of_length_eq_zero (by omega : arr.length = 0)]
      exact List.pairwise_singleton _ x

end Montauk.Sort
