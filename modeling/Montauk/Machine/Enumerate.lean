import Mathlib.Data.List.GetD

/-!
# Loops over a successor

A loop that does its work on an object, replaces the object by its successor
and ends where there is none. What it does is the fold over the objects it
visits, and these are the list in which each element is followed by its
successor (`doWhile_of_walks`). Lists of that kind are put together from pieces
(`Walks.append`, `Walks.map`), so a successor that is given by cases is
followed through the cases.

A loop over the positions of a list goes over its elements (`map_getD_range`).
-/

namespace Montauk.Enumerate

universe u v
variable {α : Type u} {β : Type v}

/-- `do { b = body(b, a); } while (a has a successor)`. -/
def doWhile (step : α → Option α) (body : β → α → β) : Nat → α → β → Option β
  | 0, _, _ => none
  | n + 1, a, b =>
      match step a with
      | none => some (body b a)
      | some a' => doWhile step body n a' (body b a)

/-- Each element is followed by its successor, and the last one's is `exit`. -/
inductive Walks (step : α → Option α) (exit : Option α) : List α → Prop where
  | last {a : α} (h : step a = exit) : Walks step exit [a]
  | cons {a b : α} {l : List α} (h : step a = some b) (hl : Walks step exit (b :: l)) :
      Walks step exit (a :: b :: l)

variable {step : α → Option α} {body : β → α → β} {exit : Option α} {a b : α} {l : List α}

theorem Walks.append {l' : List α} (h : Walks step (some b) l) (h' : Walks step exit (b :: l')) :
    Walks step exit (l ++ b :: l') := by
  induction h with
  | last h => exact .cons h h'
  | cons h _ ih => exact .cons h ih

theorem Walks.map {γ : Type*} {step' : γ → Option γ} {exit' : Option γ} (f : α → γ) (h : Walks step exit l)
    (hsome : ∀ a b, a ∈ l → step a = some b → step' (f a) = some (f b))
    (hexit : ∀ a ∈ l, step a = exit → step' (f a) = exit') : Walks step' exit' (l.map f) := by
  induction h with
  | last h => exact .last (hexit _ List.mem_cons_self h)
  | cons h hl ih =>
      refine .cons (hsome _ _ List.mem_cons_self h) (ih ?_ ?_)
      · exact fun a b ha => hsome a b (List.mem_cons_of_mem _ ha)
      · exact fun a ha => hexit a (List.mem_cons_of_mem _ ha)

theorem Walks.congr {step' : α → Option α} (h : Walks step exit l) (hstep : ∀ a ∈ l, step' a = step a) :
    Walks step' exit l := by
  have hmap := h.map id (fun a b ha hab => (hstep a ha).trans hab) fun a ha hexit => (hstep a ha).trans hexit
  rwa [List.map_id] at hmap

/-- **The loop** is the fold over what it visits, with a turn for each. -/
theorem doWhile_of_walks (h : Walks step none (a :: l)) {n : Nat} (hn : l.length < n) (b : β) :
    doWhile step body n a b = some ((a :: l).foldl body b) := by
  induction l generalizing a b n with
  | nil =>
      obtain ⟨m, rfl⟩ := Nat.exists_eq_succ_of_ne_zero (Nat.ne_of_gt hn)
      cases h with
      | last h => rw [doWhile, h]; rfl
  | cons c l ih =>
      obtain ⟨m, rfl⟩ := Nat.exists_eq_succ_of_ne_zero (Nat.ne_of_gt (Nat.zero_lt_of_lt hn))
      cases h with
      | cons h hl =>
          rw [doWhile, h, List.foldl_cons]
          exact ih hl (Nat.lt_of_succ_lt_succ hn) _

theorem map_getD_range (xs : List α) (x : α) : ((List.range xs.length).map fun i => xs.getD i x) = xs := by
  refine List.ext_getElem (by rw [List.length_map, List.length_range]) fun i _ hi => ?_
  rw [List.getElem_map, List.getElem_range, List.getD_eq_getElem _ _ hi]

end Montauk.Enumerate
