import Mathlib.Data.List.TakeWhile

/-!
# Fields between blanks

The fields of a text are what stands between its blanks (`fields`). A reader
that has a position in the text moves it over the blanks in front of a field and
over the field (`nextField`), and never looks behind the end: from any position
in the text it gives the first field from there on, and what it leaves are the
other fields (`nextField_spec`).
-/

namespace Montauk.Fields

universe u

variable {α : Type u}

/-! ## The fields of a text -/

/-- The parts between the blanks that are not empty. -/
def fields (blank : α → Bool) (s : List α) : List (List α) :=
  (s.splitOnP blank).filter fun f => !f.isEmpty

section

variable {blank : α → Bool} {s f w : List α} {c : α}

@[simp] theorem fields_nil : fields blank [] = [] := rfl

theorem fields_cons_blank (h : blank c = true) : fields blank (c :: s) = fields blank s := by
  rw [fields, List.splitOnP_cons_eq_if_modifyHead, if_pos h, List.filter_cons_of_neg (by simp)]
  rfl

theorem fields_blanks (h : ∀ c ∈ w, blank c = true) : fields blank (w ++ s) = fields blank s := by
  induction w with
  | nil => rfl
  | cons c w ih =>
      obtain ⟨hc, hw⟩ := List.forall_mem_cons.mp h
      rw [List.cons_append, fields_cons_blank hc, ih hw]

theorem fields_field (hne : f ≠ []) (hf : ∀ c ∈ f, blank c = false) (hs : ∀ c ∈ s.head?, blank c = true) :
    fields blank (f ++ s) = f :: fields blank s := by
  have hkept (fs : List (List α)) : (f :: fs).filter (fun f => !f.isEmpty) = f :: fs.filter fun f => !f.isEmpty :=
    List.filter_cons_of_pos (by simpa using hne)
  cases s with
  | nil =>
      rw [List.append_nil, fields, List.splitOnP_eq_singleton hf, hkept]
      rfl
  | cons c s =>
      have hc : blank c = true := hs c rfl
      rw [fields_cons_blank hc, fields, List.splitOnP_append_cons_of_forall_mem hf c hc, hkept]
      rfl

theorem fields_dropWhile : fields blank (s.dropWhile blank) = fields blank s := by
  have hall : ∀ c ∈ s.takeWhile blank, blank c = true := fun c hc => List.mem_takeWhile_imp hc
  have hsplit := fields_blanks (s := s.dropWhile blank) hall
  rw [List.takeWhile_append_dropWhile] at hsplit
  exact hsplit.symm

theorem fields_takeWhile (h : ∀ c ∈ s.head?, blank c = false) :
    (fields blank s).headD [] = (s.takeWhile fun c => !blank c)
      ∧ (fields blank s).tail = fields blank (s.dropWhile fun c => !blank c) := by
  cases s with
  | nil => exact ⟨rfl, rfl⟩
  | cons c s =>
      have hc : blank c = false := h c rfl
      have hfirst : ∀ d ∈ (c :: s).takeWhile (fun c => !blank c), blank d = false := fun d hd => by
        simpa using List.mem_takeWhile_imp hd
      have hnext : ∀ d ∈ ((c :: s).dropWhile fun c => !blank c).head?, blank d = true := fun d hd => by
        have hstop := List.head?_dropWhile_not (fun c => !blank c) (c :: s)
        rw [Option.mem_def.mp hd] at hstop
        simpa using hstop
      have hne : (c :: s).takeWhile (fun c => !blank c) ≠ [] := by
        rw [List.takeWhile_cons_of_pos (by simpa using hc)]
        exact List.cons_ne_nil _ _
      have hfields := fields_field hne hfirst hnext
      rw [List.takeWhile_append_dropWhile] at hfields
      rw [hfields]
      exact ⟨rfl, rfl⟩

end

/-! ## A position that moves on -/

/-- The position behind the elements from `p` on that pass the test; `none` if
an element is read that is not there, or when the steps are used up. -/
def scanWhile (s : List α) (test : α → Bool) : Nat → Nat → Option Nat
  | 0, _ => none
  | fuel + 1, p =>
      if s.length ≤ p then some p
      else (s[p]?).bind fun c => if test c then scanWhile s test fuel (p + 1) else some p

/-- The elements from `b` up to `e`; `none` if one of them is not there. -/
def slice (s : List α) (b e : Nat) : Option (List α) :=
  if b ≤ e ∧ e ≤ s.length then some ((s.drop b).take (e - b)) else none

/-- Over the blanks and over the field behind them: where it begins and ends. -/
def nextField (blank : α → Bool) (s : List α) (p : Nat) : Option (Nat × Nat) :=
  (scanWhile s blank (s.length + 1) p).bind fun b =>
    (scanWhile s (fun c => !blank c) (s.length + 1) b).map fun e => (b, e)

section

variable {s : List α} {test : α → Bool} {p : Nat}

theorem scanWhile_eq {fuel : Nat} (hp : p ≤ s.length) (hfuel : s.length - p < fuel) :
    scanWhile s test fuel p = some (p + ((s.drop p).takeWhile test).length) := by
  induction fuel generalizing p with
  | zero => exact absurd hfuel (Nat.not_lt_zero _)
  | succ fuel ih =>
      rw [scanWhile]
      by_cases hend : s.length ≤ p
      · rw [if_pos hend, List.drop_eq_nil_of_le hend]
        rfl
      · have hlt := Nat.not_le.mp hend
        rw [if_neg hend, List.getElem?_eq_getElem hlt, Option.bind_some, List.drop_eq_getElem_cons hlt]
        cases htest : test s[p] with
        | false => rw [if_neg Bool.false_ne_true, List.takeWhile_cons_of_neg (by simp [htest])]; rfl
        | true =>
            have hnext : scanWhile s test fuel (p + 1) = some (p + 1 + ((s.drop (p + 1)).takeWhile test).length) :=
              ih hlt (by omega)
            rw [if_pos rfl, hnext, List.takeWhile_cons_of_pos htest, List.length_cons]
            exact congrArg some (by omega)

theorem drop_length_takeWhile (s : List α) (test : α → Bool) (p : Nat) :
    s.drop (p + ((s.drop p).takeWhile test).length) = (s.drop p).dropWhile test := by
  have hsplit : (s.drop p).takeWhile test ++ (s.drop p).dropWhile test = s.drop p := List.takeWhile_append_dropWhile
  calc s.drop (p + ((s.drop p).takeWhile test).length)
      = (s.drop p).drop ((s.drop p).takeWhile test).length := List.drop_drop.symm
    _ = ((s.drop p).takeWhile test ++ (s.drop p).dropWhile test).drop ((s.drop p).takeWhile test).length := by rw [hsplit]
    _ = (s.drop p).dropWhile test := List.drop_left

theorem length_takeWhile_le (s : List α) (test : α → Bool) (hp : p ≤ s.length) :
    p + ((s.drop p).takeWhile test).length ≤ s.length := by
  have hle := (List.takeWhile_prefix (l := s.drop p) test).length_le
  rw [List.length_drop] at hle
  omega

/-- What `nextField` does from a position in the text. -/
structure NextField (blank : α → Bool) (s : List α) (p b e : Nat) : Prop where
  run : nextField blank s p = some (b, e)
  le : b ≤ e
  le_length : e ≤ s.length
  field : slice s b e = some ((fields blank (s.drop p)).headD [])
  rest : fields blank (s.drop e) = (fields blank (s.drop p)).tail

theorem nextField_spec (blank : α → Bool) (hp : p ≤ s.length) : ∃ b e, NextField blank s p b e := by
  have hb := length_takeWhile_le s blank hp
  have hdropb := drop_length_takeWhile s blank p
  have hscan : scanWhile s blank (s.length + 1) p = some (p + ((s.drop p).takeWhile blank).length) :=
    scanWhile_eq hp (by omega)
  generalize p + ((s.drop p).takeWhile blank).length = b at hb hdropb hscan
  have he := length_takeWhile_le s (fun c => !blank c) hb
  have hdrope := drop_length_takeWhile s (fun c => !blank c) b
  have hhead : ∀ c ∈ (s.drop b).head?, blank c = false := fun c hc => by
    have hstop := List.head?_dropWhile_not blank (s.drop p)
    rw [← hdropb, Option.mem_def.mp hc] at hstop
    exact hstop
  obtain ⟨hfirst, htail⟩ := fields_takeWhile hhead
  have hsame : fields blank (s.drop b) = fields blank (s.drop p) := by
    rw [hdropb, fields_dropWhile]
  have hend : scanWhile s (fun c => !blank c) (s.length + 1) b
      = some (b + ((s.drop b).takeWhile fun c => !blank c).length) := scanWhile_eq hb (by omega)
  refine ⟨b, _, ?_, Nat.le_add_right _ _, he, ?_, ?_⟩
  · rw [nextField, hscan, Option.bind_some, hend]
    rfl
  · rw [slice, if_pos ⟨Nat.le_add_right _ _, he⟩, ← hsame, hfirst, Nat.add_sub_cancel_left]
    exact congrArg some (List.prefix_iff_eq_take.mp (List.takeWhile_prefix _)).symm
  · rw [hdrope, ← hsame, htail]

end

end Montauk.Fields
