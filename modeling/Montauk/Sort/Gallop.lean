import Montauk.Sort.Buffer
import Montauk.Sort.Stable

/-!
# Galloping search

`gallop_left` and `gallop_right` look for the place of a key in an ascending
window: from a hint they double the offset until they have passed the place,
and finish with a binary search. Both are one search for the first element a
predicate fails on, `key x < k` for the one and `key x <= k` for the other
(`gallop_eq`).
-/

namespace Montauk.Sort

variable {α κ : Type}

/-- The doubling loop: `probe ofs` is the place looked at, `go` holds as long
as the loop has to go on. The last offset passed and the next one. -/
def gallopLoop (go : α → Bool) (seg : List α) (probe : Nat → Nat) (maxOfs : Nat) :
    Nat → Nat → Nat → Option (Nat × Nat)
  | 0, _, _ => none
  | n + 1, lastOfs, ofs =>
      if ofs < maxOfs then do
        let x ← load seg (probe ofs)
        if go x then
          -- the doubled offset may wrap around
          gallopLoop go seg probe maxOfs n ofs (if 2 * ofs + 1 ≤ ofs then maxOfs else 2 * ofs + 1)
        else some (lastOfs, ofs)
      else some (lastOfs, ofs)

def gallopBisect (p : α → Bool) (seg : List α) : Nat → Nat → Nat → Option Nat
  | 0, _, _ => none
  | n + 1, lastOfs, ofs =>
      if lastOfs < ofs then do
        let mid := lastOfs + (ofs - lastOfs) / 2
        let x ← load seg mid
        if p x then gallopBisect p seg n (mid + 1) ofs else gallopBisect p seg n lastOfs mid
      else some ofs

/-- The search from `hint`. -/
def gallop (p : α → Bool) (seg : List α) (hint : Nat) : Option Nat := do
  let x ← load seg hint
  if p x then
    let maxOfs := seg.length - hint
    let (lastOfs, ofs) ← gallopLoop p seg (fun ofs => hint + ofs) maxOfs (maxOfs + 1) 0 1
    let ofs := min ofs maxOfs
    gallopBisect p seg (seg.length + 1) (hint + lastOfs) (hint + ofs)
  else
    let maxOfs := hint + 1
    let (lastOfs, ofs) ←
      gallopLoop (fun x => !p x) seg (fun ofs => hint - ofs) maxOfs (maxOfs + 1) 0 1
    let ofs := min ofs maxOfs
    gallopBisect p seg (seg.length + 1) (if hint < ofs then 0 else hint - ofs) (hint - lastOfs)

section
variable [LinearOrder κ]

/-- `gallop_left`: how many elements are smaller than the key. -/
def gallopLeft (key : α → κ) (k : κ) (seg : List α) (hint : Nat) : Option Nat :=
  gallop (fun x => key x < k) seg hint

/-- `gallop_right`: how many elements are not larger than the key. -/
def gallopRight (key : α → κ) (k : κ) (seg : List α) (hint : Nat) : Option Nat :=
  gallop (fun x => !(k < key x)) seg hint

end

/-! ## The place found -/

/-- A window that splits where `p` turns false. -/
structure Cut (p : α → Bool) (xs ys : List α) : Prop where
  left : ∀ x ∈ xs, p x = true
  right : ∀ y ∈ ys, p y = false

variable {p : α → Bool} {xs ys : List α}

theorem Cut.load (h : Cut p xs ys) {i : Nat} (hi : i < (xs ++ ys).length) :
    ∃ z, load (xs ++ ys) i = some z ∧ p z = decide (i < xs.length) := by
  refine ⟨(xs ++ ys)[i], load_of_lt hi, ?_⟩
  by_cases hx : i < xs.length
  · rw [List.getElem_append_left hx, h.left _ (List.getElem_mem hx), decide_eq_true hx]
  · rw [List.getElem_append_right (Nat.not_lt.mp hx), h.right _ (List.getElem_mem _),
      decide_eq_false hx]

/-- What the doubling loop stops with: the last offset is passed, the next one
is out of range or not. -/
structure GallopStop (pass : Nat → Prop) (maxOfs : Nat) (r : Nat × Nat) : Prop where
  passed : pass r.1
  lt : r.1 < r.2
  stops : maxOfs ≤ r.2 ∨ ¬ pass r.2

theorem gallopLoop_spec {go : α → Bool} {seg : List α} {probe : Nat → Nat} {maxOfs : Nat}
    {pass : Nat → Prop}
    (hload : ∀ j < maxOfs, ∃ z, load seg (probe j) = some z ∧ (go z = true ↔ pass j)) :
    ∀ {n lastOfs ofs : Nat}, maxOfs - ofs < n → pass lastOfs → lastOfs < ofs →
      ∃ r, gallopLoop go seg probe maxOfs n lastOfs ofs = some r ∧ GallopStop pass maxOfs r
  | 0, _, _, hn, _, _ => absurd hn (Nat.not_lt_zero _)
  | n + 1, lastOfs, ofs, hn, hpass, hlt => by
      rw [gallopLoop]
      by_cases hmax : ofs < maxOfs
      · obtain ⟨z, hz, hgo⟩ := hload ofs hmax
        have hwrap : ¬ 2 * ofs + 1 ≤ ofs := by omega
        rw [if_pos hmax, hz, if_neg hwrap]
        by_cases hz : go z = true
        · obtain ⟨r, hr, hstop⟩ : ∃ r, gallopLoop go seg probe maxOfs n ofs (2 * ofs + 1) = some r
              ∧ GallopStop pass maxOfs r :=
            gallopLoop_spec hload (by omega) (hgo.mp hz) (by omega)
          refine ⟨r, ?_, hstop⟩
          show (if go z = true then _ else _) = _
          rw [if_pos hz, hr]
        · refine ⟨(lastOfs, ofs), ?_, hpass, hlt, .inr fun h => hz (hgo.mpr h)⟩
          show (if go z = true then _ else _) = _
          rw [if_neg hz]
      · rw [if_neg hmax]
        exact ⟨_, rfl, hpass, hlt, .inl (Nat.not_lt.mp hmax)⟩

theorem gallopBisect_spec (h : Cut p xs ys) :
    ∀ {n lastOfs ofs : Nat}, ofs - lastOfs < n → lastOfs ≤ xs.length → xs.length ≤ ofs →
      ofs ≤ (xs ++ ys).length → gallopBisect p (xs ++ ys) n lastOfs ofs = some xs.length
  | 0, _, _, hn, _, _, _ => absurd hn (Nat.not_lt_zero _)
  | n + 1, lastOfs, ofs, hn, hlast, hofs, hlen => by
      rw [gallopBisect]
      by_cases hlt : lastOfs < ofs
      · obtain ⟨z, hz, hp⟩ := h.load (i := lastOfs + (ofs - lastOfs) / 2) (by omega)
        rw [if_pos hlt]
        dsimp only
        rw [hz]
        show (if p z = true then _ else _) = _
        rw [hp]
        by_cases hmid : lastOfs + (ofs - lastOfs) / 2 < xs.length
        · rw [decide_eq_true hmid, if_pos rfl]
          exact gallopBisect_spec h (by omega) hmid hofs hlen
        · rw [decide_eq_false hmid, if_neg Bool.false_ne_true]
          exact gallopBisect_spec h (by omega) hlast (Nat.not_lt.mp hmid) (by omega)
      · rw [if_neg hlt, show ofs = xs.length by omega]

theorem gallop_up (h : Cut p xs ys) {hint : Nat} (hhint : hint < xs.length) :
    ∃ lastOfs ofs, gallopLoop p (xs ++ ys) (fun ofs => hint + ofs) ((xs ++ ys).length - hint)
        ((xs ++ ys).length - hint + 1) 0 1 = some (lastOfs, ofs)
      ∧ hint + lastOfs < xs.length ∧ xs.length ≤ hint + min ofs ((xs ++ ys).length - hint) := by
  have hlen : (xs ++ ys).length = xs.length + ys.length := List.length_append
  have hload : ∀ j < (xs ++ ys).length - hint, ∃ z, load (xs ++ ys) (hint + j) = some z
      ∧ (p z = true ↔ hint + j < xs.length) := by
    intro j hj
    obtain ⟨z, hz, hp⟩ := h.load (i := hint + j) (by omega)
    exact ⟨z, hz, by rw [hp, decide_eq_true_iff]⟩
  obtain ⟨⟨lastOfs, ofs⟩, hr, hstop⟩ : ∃ r, gallopLoop p (xs ++ ys) (fun ofs => hint + ofs)
        ((xs ++ ys).length - hint) ((xs ++ ys).length - hint + 1) 0 1 = some r
      ∧ GallopStop (fun j => hint + j < xs.length) ((xs ++ ys).length - hint) r :=
    gallopLoop_spec hload (by omega) hhint (by omega)
  obtain ⟨hpassed, -, hstops⟩ := hstop
  refine ⟨lastOfs, ofs, hr, hpassed, ?_⟩
  dsimp only at hstops
  omega

theorem gallop_down (h : Cut p xs ys) {hint : Nat} (hin : xs.length ≤ hint)
    (hhint : hint < (xs ++ ys).length) :
    ∃ lastOfs ofs, gallopLoop (fun x => !p x) (xs ++ ys) (fun ofs => hint - ofs) (hint + 1)
        (hint + 1 + 1) 0 1 = some (lastOfs, ofs)
      ∧ xs.length ≤ hint - lastOfs
      ∧ (if hint < min ofs (hint + 1) then 0 else hint - min ofs (hint + 1)) ≤ xs.length := by
  have hlen : (xs ++ ys).length = xs.length + ys.length := List.length_append
  have hload : ∀ j < hint + 1, ∃ z, load (xs ++ ys) (hint - j) = some z
      ∧ ((!p z) = true ↔ xs.length ≤ hint - j) := by
    intro j hj
    obtain ⟨z, hz, hp⟩ := h.load (i := hint - j) (by omega)
    exact ⟨z, hz, by rw [hp, Bool.not_eq_true', decide_eq_false_iff_not, Nat.not_lt]⟩
  obtain ⟨⟨lastOfs, ofs⟩, hr, hstop⟩ : ∃ r, gallopLoop (fun x => !p x) (xs ++ ys)
        (fun ofs => hint - ofs) (hint + 1) (hint + 1 + 1) 0 1 = some r
      ∧ GallopStop (fun j => xs.length ≤ hint - j) (hint + 1) r :=
    gallopLoop_spec hload (by omega) hin (by omega)
  obtain ⟨hpassed, -, hstops⟩ := hstop
  refine ⟨lastOfs, ofs, hr, hpassed, ?_⟩
  dsimp only at hstops
  split <;> omega

/-- **Galloping finds the place** from any hint inside the window. -/
theorem gallop_spec (h : Cut p xs ys) {hint : Nat} (hhint : hint < (xs ++ ys).length) :
    gallop p (xs ++ ys) hint = some xs.length := by
  have hlen : (xs ++ ys).length = xs.length + ys.length := List.length_append
  obtain ⟨z, hz, hp⟩ := h.load hhint
  rw [gallop, hz]
  show (if p z = true then _ else _) = _
  rw [hp]
  by_cases hin : hint < xs.length
  · rw [decide_eq_true hin, if_pos rfl]
    obtain ⟨lastOfs, ofs, hr, hlast, hofs⟩ := gallop_up h hin
    dsimp only
    rw [hr]
    exact gallopBisect_spec h (by omega) (by omega) hofs (by omega)
  · rw [decide_eq_false hin, if_neg Bool.false_ne_true]
    obtain ⟨lastOfs, ofs, hr, hlast, hofs⟩ := gallop_down h (Nat.not_lt.mp hin) hhint
    dsimp only
    rw [hr]
    exact gallopBisect_spec h (by omega) hofs hlast (by omega)

/-! ## Ascending windows -/

section
variable [LinearOrder κ] {key : α → κ} {seg : List α}

/-- An ascending window splits into the elements up to a key and the larger
ones. -/
theorem Ascending.split_le (h : Ascending key seg) (k : κ) :
    ∃ xs ys, seg = xs ++ ys ∧ (∀ x ∈ xs, key x ≤ k) ∧ ∀ y ∈ ys, k < key y := by
  induction seg with
  | nil => exact ⟨[], [], rfl, by simp, by simp⟩
  | cons x seg ih =>
      obtain ⟨hx, hseg⟩ := List.pairwise_cons.mp h
      rcases le_or_gt (key x) k with hle | hlt
      · obtain ⟨xs, ys, rfl, hxs, hys⟩ := ih hseg
        refine ⟨x :: xs, ys, rfl, ?_, hys⟩
        intro z hz
        rcases List.mem_cons.mp hz with rfl | hz
        · exact hle
        · exact hxs z hz
      · refine ⟨[], x :: seg, rfl, by simp, fun y hy => ?_⟩
        exact hlt.trans_le (h.head_le y hy)

/-- An ascending window splits into the elements below a key and the rest. -/
theorem Ascending.split_lt (h : Ascending key seg) (k : κ) :
    ∃ xs ys, seg = xs ++ ys ∧ (∀ x ∈ xs, key x < k) ∧ ∀ y ∈ ys, k ≤ key y := by
  induction seg with
  | nil => exact ⟨[], [], rfl, by simp, by simp⟩
  | cons x seg ih =>
      obtain ⟨hx, hseg⟩ := List.pairwise_cons.mp h
      rcases lt_or_ge (key x) k with hlt | hle
      · obtain ⟨xs, ys, rfl, hxs, hys⟩ := ih hseg
        refine ⟨x :: xs, ys, rfl, ?_, hys⟩
        intro z hz
        rcases List.mem_cons.mp hz with rfl | hz
        · exact hlt
        · exact hxs z hz
      · refine ⟨[], x :: seg, rfl, by simp, fun y hy => ?_⟩
        exact hle.trans (h.head_le y hy)

theorem gallopLeft_spec {k : κ} {xs ys : List α} (hx : ∀ x ∈ xs, key x < k)
    (hy : ∀ y ∈ ys, k ≤ key y) {hint : Nat} (hhint : hint < (xs ++ ys).length) :
    gallopLeft key k (xs ++ ys) hint = some xs.length :=
  gallop_spec ⟨fun x hm => decide_eq_true (hx x hm), fun y hm => decide_eq_false (hy y hm).not_gt⟩
    hhint

theorem gallopRight_spec {k : κ} {xs ys : List α} (hx : ∀ x ∈ xs, key x ≤ k)
    (hy : ∀ y ∈ ys, k < key y) {hint : Nat} (hhint : hint < (xs ++ ys).length) :
    gallopRight key k (xs ++ ys) hint = some xs.length :=
  gallop_spec
    ⟨fun x hm => by simpa using hx x hm, fun y hm => by simpa using hy y hm⟩ hhint

end

end Montauk.Sort
