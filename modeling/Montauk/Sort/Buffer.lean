import Mathlib.Data.List.Basic

/-!
# Bounds-checked buffers

An array of a C function as a list, with loads and stores that fail outside
of it. A function of a pointer and a length works on a window of the array
(`onWindow`): it can neither read nor write anything else. A program in the
`Option` monad that returns `some` has kept every index in bounds.
-/

namespace Montauk.Sort

variable {α : Type}

/-- `a[i]`. -/
def load (a : List α) (i : Nat) : Option α := a[i]?

/-- `a[i] = v`. -/
def store (a : List α) (i : Nat) (v : α) : Option (List α) :=
  if i < a.length then some (a.set i v) else none

/-- The `n` elements at `i`, as a `memcpy` reads them. -/
def loadN (a : List α) (i n : Nat) : Option (List α) :=
  if i + n ≤ a.length then some ((a.drop i).take n) else none

/-- A `memcpy` or `memmove` of `vs` to `i`. -/
def storeN (a : List α) (i : Nat) (vs : List α) : Option (List α) :=
  if i + vs.length ≤ a.length then some (a.take i ++ vs ++ a.drop (i + vs.length)) else none

/-- `p[-1]` for a pointer one past an element, as a loop that runs downwards
keeps it. -/
def loadBelow (a : List α) (i : Nat) : Option α := if i = 0 then none else load a (i - 1)

def storeBelow (a : List α) (i : Nat) (v : α) : Option (List α) :=
  if i = 0 then none else store a (i - 1) v

/-- A call with the pointer `a + i` and the length `n`. -/
def onWindow (a : List α) (i n : Nat) (f : List α → Option (List α)) : Option (List α) := do
  let w ← loadN a i n
  let w' ← f w
  storeN a i w'

variable {xs ys zs vs : List α} {x y v : α} {i n : Nat}

theorem exists_concat (h : 0 < xs.length) : ∃ ys z, xs = ys ++ [z] := by
  obtain ⟨ys, z, hz⟩ := (List.eq_nil_or_concat xs).resolve_left (List.ne_nil_of_length_pos h)
  exact ⟨ys, z, hz.trans (List.concat_eq_append ..)⟩

theorem load_append (hi : i = xs.length) : load (xs ++ y :: ys) i = some y := by
  rw [load, hi, List.getElem?_append_right (Nat.le_refl _), Nat.sub_self, List.getElem?_cons_zero]

theorem load_of_lt (hi : i < xs.length) : load xs i = some (xs[i]) := List.getElem?_eq_getElem hi

theorem store_append (hi : i = xs.length) : store (xs ++ y :: ys) i v = some (xs ++ v :: ys) := by
  rw [store, if_pos (by rw [hi, List.length_append, List.length_cons]; omega), hi,
    List.set_append_right _ _ (Nat.le_refl _), Nat.sub_self, List.set_cons_zero]

theorem loadN_append (hi : i = xs.length) (hn : n = ys.length) :
    loadN (xs ++ ys ++ zs) i n = some ys := by
  have hfit : i + n ≤ (xs ++ ys ++ zs).length := by
    rw [List.length_append, List.length_append, hi, hn]
    omega
  rw [loadN, if_pos hfit, hi, hn, List.append_assoc, List.drop_left, List.take_left]

theorem loadN_front (hn : n = xs.length) : loadN (xs ++ ys) 0 n = some xs := by
  have h : loadN ([] ++ xs ++ ys) 0 n = some xs := loadN_append rfl hn
  rwa [List.nil_append] at h

theorem loadN_suffix (hi : i = xs.length) (hn : n = ys.length) :
    loadN (xs ++ ys) i n = some ys := by
  have h : loadN (xs ++ ys ++ []) i n = some ys := loadN_append hi hn
  rwa [List.append_nil] at h

theorem storeN_append (hi : i = xs.length) (hn : vs.length = ys.length) :
    storeN (xs ++ ys ++ zs) i vs = some (xs ++ vs ++ zs) := by
  have hfit : i + vs.length ≤ (xs ++ ys ++ zs).length := by
    rw [List.length_append, List.length_append, hi, hn]
    omega
  have hrest : (xs ++ ys ++ zs).drop (i + vs.length) = zs :=
    List.drop_left' (by rw [List.length_append, hi, hn])
  rw [storeN, if_pos hfit, hrest, List.append_assoc xs, hi, List.take_left]

theorem storeN_front (hn : vs.length = xs.length) : storeN (xs ++ ys) 0 vs = some (vs ++ ys) := by
  have h : storeN ([] ++ xs ++ ys) 0 vs = some ([] ++ vs ++ ys) := storeN_append rfl hn
  rwa [List.nil_append, List.nil_append] at h

theorem loadBelow_append (hi : i = xs.length + 1) : loadBelow (xs ++ y :: ys) i = some y := by
  rw [loadBelow, if_neg (by omega)]
  exact load_append (by omega)

theorem store_eq_storeN (a : List α) (i : Nat) (v : α) : store a i v = storeN a i [v] := by
  rw [store, storeN, List.length_singleton]
  by_cases hi : i < a.length
  · rw [if_pos hi, if_pos (Nat.succ_le_of_lt hi), List.set_eq_take_append_cons_drop, if_pos hi,
      List.append_assoc]
    rfl
  · rw [if_neg hi, if_neg (by omega)]

theorem storeBelow_eq_storeN (a : List α) (v : α) (hi : 0 < i) :
    storeBelow a i v = storeN a (i - 1) [v] := by
  rw [storeBelow, if_neg (by omega), store_eq_storeN]

theorem storeN_append_drop (hi : i = xs.length) (hn : vs.length ≤ ys.length) :
    storeN (xs ++ ys) i vs = some (xs ++ vs ++ ys.drop vs.length) := by
  have hsplit : xs ++ ys = xs ++ ys.take vs.length ++ ys.drop vs.length := by
    rw [List.append_assoc, List.take_append_drop]
  rw [hsplit]
  exact storeN_append hi (by rw [List.length_take, Nat.min_eq_left hn])

/-- What is in front of `i + vs.length` is overwritten from the back. -/
theorem storeN_append_take (hi : i + vs.length = xs.length) :
    storeN (xs ++ ys) i vs = some (xs.take i ++ vs ++ ys) := by
  have hsplit : xs ++ ys = xs.take i ++ xs.drop i ++ ys := by rw [List.take_append_drop]
  rw [hsplit]
  exact storeN_append (by rw [List.length_take]; omega) (by rw [List.length_drop]; omega)

theorem onWindow_append {f : List α → Option (List α)} (hi : i = xs.length) (hn : n = ys.length)
    (hf : f ys = some vs) (hlen : vs.length = ys.length) :
    onWindow (xs ++ ys ++ zs) i n f = some (xs ++ vs ++ zs) := by
  rw [onWindow, loadN_append hi hn]
  show (f ys).bind _ = _
  rw [hf]
  exact storeN_append hi hlen

end Montauk.Sort
