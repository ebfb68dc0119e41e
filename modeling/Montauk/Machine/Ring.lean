import Mathlib.Data.List.Basic

/-!
# Ring buffers

The last few values in an array that is written around and around: `next` is
the cell to be written, and the `n` newest values end in front of it. `Holds`
says which queue the cells stand for.
-/

namespace Montauk.Ring

variable {β : Type}

/-- The cell of value `k` of `n`, the oldest first. -/
def cellOf (cap next n k : Nat) : Nat := (next + cap - n + k) % cap

/-- The cells hold the queue `q`, the oldest value first. -/
structure Holds (cells : List (Option β)) (next : Nat) (q : List β) : Prop where
  next_lt : 0 < cells.length → next < cells.length
  fits : q.length ≤ cells.length
  held : ∀ k x, q[k]? = some x → cells[cellOf cells.length next q.length k]? = some (some x)

/-- The queue after one more value, without the oldest when there is no room. -/
def pushed (cap : Nat) (q : List β) (x : β) : List β := (q ++ [x]).drop (q.length + 1 - cap)

variable {cells : List (Option β)} {next cap : Nat} {q : List β} {x : β}

theorem Holds.clear (h : Holds cells next q) : Holds cells next [] where
  next_lt := h.next_lt
  fits := Nat.zero_le _
  held _ _ hx := absurd hx nofun

theorem mapM_range' {γ : Type} {f : Nat → Option γ} {g : β → γ} (start : Nat)
    (h : ∀ k x, q[k]? = some x → f (start + k) = some (g x)) :
    (List.range' start q.length).mapM f = some (q.map g) := by
  induction q generalizing start with
  | nil => rfl
  | cons x q ih =>
      have hhead : f start = some (g x) := h 0 x rfl
      have htail : (List.range' (start + 1) q.length).mapM f = some (q.map g) := by
        refine ih (start + 1) fun k y hy => ?_
        rw [Nat.add_assoc, Nat.add_comm 1 k]
        exact h (k + 1) y hy
      rw [List.length_cons, List.range'_succ, List.mapM_cons, hhead, htail]
      rfl

theorem Holds.mapM {γ : Type} (h : Holds cells next q) (g : β → γ) :
    (List.range q.length).mapM
        (fun k => (cells[cellOf cells.length next q.length k]?).join.map g)
      = some (q.map g) := by
  rw [List.range_eq_range']
  refine mapM_range' 0 fun k x hx => ?_
  rw [Nat.zero_add, h.held k x hx]
  rfl

theorem length_pushed (hpos : 0 < cap) (hq : q.length ≤ cap) :
    (pushed cap q x).length = if q.length < cap then q.length + 1 else q.length := by
  rw [pushed, List.length_drop, List.length_append, List.length_singleton]
  split <;> omega

theorem Holds.push (h : Holds cells next q) (hpos : 0 < cells.length) (x : β) :
    Holds (cells.set next (some x)) ((next + 1) % cells.length) (pushed cells.length q x) := by
  have hnext := h.next_lt hpos
  have hfits := h.fits
  have hlen : (pushed cells.length q x).length + (q.length + 1 - cells.length) = q.length + 1 := by
    rw [pushed, List.length_drop, List.length_append, List.length_singleton]
    omega
  refine ⟨fun _ => ?_, ?_, fun k y hy => ?_⟩
  · rw [List.length_set]
    exact Nat.mod_lt _ hpos
  · rw [List.length_set]
    omega
  · rw [List.length_set]
    have hk : k < (pushed cells.length q x).length := (List.getElem?_eq_some_iff.mp hy).1
    -- value `k` of the new queue is value `j` of the old one, or the new value
    obtain ⟨j, hj⟩ : ∃ j, j = q.length + 1 - cells.length + k := ⟨_, rfl⟩
    have hcell : cellOf cells.length ((next + 1) % cells.length) (pushed cells.length q x).length k
        = (next + (cells.length - q.length + j)) % cells.length := by
      have hsum : (next + 1) % cells.length + cells.length - (pushed cells.length q x).length + k
          = (next + 1) % cells.length + (cells.length - (pushed cells.length q x).length + k) := by omega
      rw [cellOf, hsum, Nat.mod_add_mod]
      congr 1
      omega
    rw [pushed, List.getElem?_drop, ← hj] at hy
    rw [hcell]
    by_cases hjq : j < q.length
    · rw [List.getElem?_append_left hjq] at hy
      have hold := h.held j y hy
      have hsame : cellOf cells.length next q.length j = (next + (cells.length - q.length + j)) % cells.length := by
        rw [cellOf]
        congr 1
        omega
      rw [hsame] at hold
      rw [List.getElem?_set_ne, hold]
      -- an old value is not in the cell that is written
      intro heq
      by_cases hwrap : next + (cells.length - q.length + j) < cells.length
      · rw [Nat.mod_eq_of_lt hwrap] at heq
        omega
      · rw [Nat.mod_eq_sub_mod (by omega), Nat.mod_eq_of_lt (by omega)] at heq
        omega
    · obtain rfl : j = q.length := by omega
      rw [List.getElem?_append_right (Nat.le_refl _), Nat.sub_self, List.getElem?_cons_zero] at hy
      have hat : (next + (cells.length - q.length + q.length)) % cells.length = next := by
        rw [Nat.sub_add_cancel hfits, Nat.add_mod_right, Nat.mod_eq_of_lt hnext]
      rw [hat, List.getElem?_set_self hnext, ← Option.some.inj hy]

end Montauk.Ring
