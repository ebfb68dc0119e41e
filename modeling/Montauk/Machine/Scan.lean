import Mathlib.Data.List.DropRight

/-!
# Scanning lists

The few operations hand-written scanners are made of: the first occurrence of
a separator (`cutAt`), the pieces between separators (`pieces`), and a list
without the padding at its ends (`trim`), each with the law that it undoes an
append; and the strings of C, which end at a NUL.
-/

namespace Montauk.Scan

variable {α : Type} [DecidableEq α]

/-- What stands before and behind the first `c`. -/
def cutAt (c : α) : List α → Option (List α × List α)
  | [] => none
  | x :: xs => if x = c then some ([], xs) else (cutAt c xs).map fun p => (x :: p.1, p.2)

variable {c : α} {a b s : List α}

theorem cutAt_append (h : c ∉ a) (b : List α) : cutAt c (a ++ c :: b) = some (a, b) := by
  induction a with
  | nil => simp [cutAt]
  | cons x a ih =>
    obtain ⟨hx, ha⟩ := not_or.mp (mt List.mem_cons.mpr h)
    rw [List.cons_append, cutAt, if_neg (Ne.symm hx), ih ha]
    rfl

theorem cutAt_none (h : c ∉ s) : cutAt c s = none := by
  induction s with
  | nil => rfl
  | cons x s ih =>
    obtain ⟨hx, hs⟩ := not_or.mp (mt List.mem_cons.mpr h)
    rw [cutAt, if_neg (Ne.symm hx), ih hs]
    rfl

theorem cutAt_some (h : cutAt c s = some (a, b)) : s = a ++ c :: b ∧ c ∉ a := by
  induction s generalizing a with
  | nil => cases h
  | cons x s ih =>
    rw [cutAt] at h
    split at h
    · rename_i hx
      cases h
      cases hx
      exact ⟨rfl, List.not_mem_nil⟩
    · rename_i hx
      obtain ⟨p, hp, he⟩ := Option.map_eq_some_iff.mp h
      cases he
      obtain ⟨hs, hc⟩ := ih hp
      refine ⟨by rw [hs]; rfl, ?_⟩
      rw [List.mem_cons, not_or]
      exact ⟨Ne.symm hx, hc⟩

theorem cutAt_append_of_mem (h : c ∈ a) (b : List α) :
    cutAt c (a ++ b) = (cutAt c a).map fun p => (p.1, p.2 ++ b) := by
  induction a with
  | nil => cases h
  | cons x a ih =>
    rw [List.cons_append, cutAt, cutAt]
    by_cases hx : x = c
    · simp [hx]
    · have ha : c ∈ a := by
        rcases List.mem_cons.mp h with rfl | ha
        · exact (hx rfl).elim
        · exact ha
      rw [if_neg hx, if_neg hx, ih ha, Option.map_map, Option.map_map]
      rfl

theorem exists_cutAt (h : c ∈ s) : ∃ a b, cutAt c s = some (a, b) := by
  cases hc : cutAt c s with
  | some p => exact ⟨p.1, p.2, rfl⟩
  | none =>
    obtain ⟨a, b, hs, ha⟩ := List.eq_append_cons_of_mem h
    rw [hs, cutAt_append ha] at hc
    cases hc

theorem length_cutAt (h : cutAt c s = some (a, b)) : b.length < s.length := by
  rw [(cutAt_some h).1, List.length_append, List.length_cons]
  omega

/-- The pieces between the `c`s; nothing behind the last one is no piece. -/
def pieces (c : α) (s : List α) : List (List α) :=
  if s = [] then []
  else
    match h : cutAt c s with
    | none => [s]
    | some p =>
        have : p.2.length < s.length := length_cutAt h
        p.1 :: pieces c p.2
termination_by s.length

theorem pieces_nil : pieces c ([] : List α) = [] := by
  rw [pieces, if_pos rfl]

theorem pieces_append (h : c ∉ a) (b : List α) : pieces c (a ++ c :: b) = a :: pieces c b := by
  have hne : a ++ c :: b ≠ [] := by simp
  rw [pieces, if_neg hne]
  split
  · rename_i hn
    rw [cutAt_append h] at hn
    cases hn
  · rename_i p hp
    rw [cutAt_append h] at hp
    cases hp
    rfl

/-- What `a` does to the pieces it stands in front of. -/
def glue (a : List α) : List (List α) → List (List α)
  | [] => [a]
  | l :: ls => (a ++ l) :: ls

/-- A text without separators becomes a part of the first piece behind it. -/
theorem pieces_glue (hne : a ≠ []) (h : c ∉ a) (s : List α) :
    pieces c (a ++ s) = glue a (pieces c s) := by
  have hwhole : ∀ t : List α, t ≠ [] → c ∉ t → pieces c t = [t] := by
    intro t ht hc
    rw [pieces, if_neg ht]
    split
    · rfl
    · rename_i p hp
      rw [cutAt_none hc] at hp
      cases hp
  by_cases hs : c ∈ s
  · obtain ⟨x, y, rfl, hx⟩ := List.eq_append_cons_of_mem hs
    have hax : c ∉ a ++ x := by
      rw [List.mem_append, not_or]
      exact ⟨h, hx⟩
    rw [pieces_append hx, ← List.append_assoc, pieces_append hax, glue]
  · by_cases hnil : s = []
    · rw [hnil, List.append_nil, pieces_nil, hwhole a hne h, glue]
    · have has : c ∉ a ++ s := by
        rw [List.mem_append, not_or]
        exact ⟨h, hs⟩
      rw [hwhole _ (by simp [hne]) has, hwhole s hnil hs, glue]

theorem pieces_lines : ∀ {ls : List (List α)}, (∀ l ∈ ls, c ∉ l) → ∀ s : List α,
    pieces c (ls.flatMap (fun l => l ++ [c]) ++ s) = ls ++ pieces c s
  | [], _, _ => rfl
  | l :: ls, h, s => by
      have hl : c ∉ l := h l List.mem_cons_self
      rw [List.flatMap_cons, List.append_assoc, List.append_assoc, List.singleton_append,
        pieces_append hl, pieces_lines fun l' hl' => h l' (List.mem_cons_of_mem l hl')]
      rfl

/-- A list without what satisfies `p` in front and `q` at the end. -/
def trim (p q : α → Bool) (s : List α) : List α := (s.dropWhile p).rdropWhile q

omit [DecidableEq α] in
theorem trim_eq_self {p q : α → Bool} (hne : s ≠ []) (hp : p (s.head hne) = false)
    (hq : q (s.getLast hne) = false) : trim p q s = s := by
  cases s with
  | nil => exact (hne rfl).elim
  | cons x s =>
    rw [trim, List.dropWhile_cons_of_neg (by simpa using hp), List.rdropWhile_eq_self_iff]
    intro hl
    simpa using hq

/-! ## Strings that end at a NUL -/

/-- A string in a zeroed buffer of `n` bytes, cut so that a NUL follows. -/
def cbuf (n : Nat) (s : List UInt8) : List UInt8 :=
  let s := s.take (n - 1)
  s ++ List.replicate (n - s.length) 0

def cstr (b : List UInt8) : List UInt8 := b.takeWhile fun c => c != 0

theorem length_cbuf (n : Nat) (s : List UInt8) : (cbuf n s).length = n := by
  unfold cbuf
  simp only [List.length_append, List.length_take, List.length_replicate]
  omega

theorem cstr_eq_self {b : List UInt8} (h : 0 ∉ b) : cstr b = b := by
  refine List.takeWhile_eq_self_iff.mpr fun c hc => ?_
  have hne : c ≠ 0 := fun he => h (he ▸ hc)
  simp [hne]

end Montauk.Scan
