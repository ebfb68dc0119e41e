import Montauk.Sort.Insertion

/-!
# Natural runs

`count_run_asc` finds the run at the front of a window, strictly descending or
ascending, and reverses a descending one in place.
-/

namespace Montauk.Sort

variable {α κ : Type}

/-- The scan of a run: `run` grows as long as the next element `follows` the
one before it. -/
def runLoop (follows : α → α → Bool) (a : List α) : Nat → Nat → Option Nat
  | 0, _ => none
  | n + 1, run =>
      if run < a.length - 1 then do
        let y ← load a (run + 1)
        let x ← load a run
        if follows x y then runLoop follows a n (run + 1) else some run
      else some run

/-- The swaps of a reversal, from both ends. -/
def reverseLoop : Nat → Nat → Nat → List α → Option (List α)
  | 0, _, _, _ => none
  | n + 1, i, j, a =>
      if i < j then do
        let x ← load a i
        let y ← load a j
        let a ← store a i y
        let a ← store a j x
        reverseLoop n (i + 1) (j - 1) a
      else some a

/-- `count_run_asc`: the length of the run, and the window with a descending
run reversed. -/
def countRunAsc [LinearOrder κ] (key : α → κ) (a : List α) : Option (Nat × List α) :=
  if a.length ≤ 1 then some (a.length, a)
  else do
    let y ← load a 1
    let x ← load a 0
    if key y < key x then
      let run ← runLoop (fun x y => key y < key x) a a.length 1
      let run := run + 1
      let a ← reverseLoop (run + 1) 0 (run - 1) a
      some (run, a)
    else
      let run ← runLoop (fun x y => !(key y < key x)) a a.length 1
      let run := run + 1
      some (run, a)

/-! ## What the scan finds -/

variable {follows : α → α → Bool} {a xs ys rest : List α}

theorem runLoop_spec {R : α → α → Prop} (hR : ∀ x y, follows x y = true → R x y)
    (htrans : ∀ {x y z}, R x y → R y z → R x z) :
    ∀ {n : Nat} {xs : List α} {x : α} {rest : List α}, rest.length < n →
      (xs ++ [x]).Pairwise R →
      ∃ ys zs, rest = ys ++ zs ∧ (xs ++ [x] ++ ys).Pairwise R
        ∧ runLoop follows (xs ++ [x] ++ rest) n xs.length = some (xs.length + ys.length)
  | 0, _, _, _, hn, _ => absurd hn (Nat.not_lt_zero _)
  | n + 1, xs, x, [], hn, hrun => by
      refine ⟨[], [], rfl, by rwa [List.append_nil], ?_⟩
      rw [runLoop, if_neg (by simp)]
      rfl
  | n + 1, xs, x, y :: rest, hn, hrun => by
      have hmore : xs.length < (xs ++ [x] ++ y :: rest).length - 1 := by
        simp only [List.length_append, List.length_cons, List.length_nil]
        omega
      have hy : load (xs ++ [x] ++ y :: rest) (xs.length + 1) = some y :=
        load_append (by rw [List.length_append, List.length_singleton])
      have hx : load (xs ++ [x] ++ y :: rest) xs.length = some x := by
        rw [List.append_assoc]
        exact load_append rfl
      rw [runLoop, if_pos hmore, hy, hx]
      show ∃ ys zs, _ ∧ _ ∧ (if follows x y = true then _ else _) = _
      by_cases hxy : follows x y = true
      · have hrun' : (xs ++ [x] ++ [y]).Pairwise R := by
          refine List.pairwise_append.mpr ⟨hrun, List.pairwise_singleton R y, ?_⟩
          intro w hw z hz
          rw [List.mem_singleton.mp hz]
          rcases List.mem_append.mp hw with hw | hw
          · have hwx := (List.pairwise_append.mp hrun).2.2 w hw x (List.mem_singleton.mpr rfl)
            exact htrans hwx (hR x y hxy)
          · rw [List.mem_singleton.mp hw]
            exact hR x y hxy
        obtain ⟨ys, zs, hrest, hys, hloop⟩ :=
          runLoop_spec hR htrans (show rest.length < n by rw [List.length_cons] at hn; omega) hrun'
        refine ⟨y :: ys, zs, by rw [hrest]; rfl, ?_, ?_⟩
        · rwa [List.append_assoc _ [y], List.singleton_append] at hys
        · rw [if_pos hxy]
          rw [List.length_append, List.length_singleton, List.append_assoc _ [y],
            List.singleton_append] at hloop
          rw [hloop, List.length_cons]
          congr 1
          omega
      · rw [if_neg hxy]
        exact ⟨[], y :: rest, rfl, by rwa [List.append_nil], rfl⟩

theorem reverseLoop_spec :
    ∀ {n : Nat} (pre mid post : List α), mid.length < n →
      reverseLoop n pre.length (pre.length + mid.length - 1) (pre ++ mid ++ post)
        = some (pre ++ mid.reverse ++ post)
  | 0, _, _, _, hn => absurd hn (Nat.not_lt_zero _)
  | n + 1, pre, mid, post, hn => by
      rw [reverseLoop]
      by_cases hshort : mid.length ≤ 1
      · rw [if_neg (by omega)]
        have hrev : mid.reverse = mid := by
          cases mid with
          | nil => rfl
          | cons x mid =>
              rw [List.length_cons] at hshort
              rw [List.eq_nil_of_length_eq_zero (Nat.le_zero.mp (Nat.le_of_succ_le_succ hshort))]
              rfl
        rw [hrev]
      · obtain ⟨x, mid, rfl⟩ := List.exists_cons_of_length_pos (show 0 < mid.length by omega)
        rw [List.length_cons] at hshort
        obtain ⟨mid, y, rfl⟩ := exists_concat (show 0 < mid.length by omega)
        have hlen : (x :: (mid ++ [y])).length = mid.length + 2 := by
          rw [List.length_cons, List.length_append, List.length_singleton]
        have hends : ∀ v w : α, pre ++ v :: (mid ++ [w]) ++ post = pre ++ v :: (mid ++ w :: post) := by
          intro v w
          simp
        have hlast : pre.length + (x :: (mid ++ [y])).length - 1 = (pre ++ x :: mid).length := by
          rw [hlen, List.length_append, List.length_cons]
          omega
        have hy : load (pre ++ x :: (mid ++ y :: post)) (pre.length + (x :: (mid ++ [y])).length - 1)
            = some y := by
          rw [← List.cons_append, ← List.append_assoc]
          exact load_append hlast
        have hx : store (pre ++ y :: (mid ++ y :: post))
            (pre.length + (x :: (mid ++ [y])).length - 1) x
              = some (pre ++ [y] ++ mid ++ (x :: post)) := by
          rw [← List.cons_append, ← List.append_assoc, store_append]
          · simp
          · rw [hlast, List.length_append, List.length_append]
            rfl
        rw [if_pos (by omega), hends, load_append rfl]
        show (load (pre ++ x :: (mid ++ y :: post)) _).bind _ = _
        rw [hy]
        show (store (pre ++ x :: (mid ++ y :: post)) pre.length y).bind _ = _
        rw [store_append rfl]
        show (store (pre ++ y :: (mid ++ y :: post)) _ x).bind _ = _
        rw [hx]
        have hrest := reverseLoop_spec (n := n) (pre ++ [y]) mid (x :: post)
          (by rw [hlen] at hn; omega)
        rw [List.length_append, List.length_singleton] at hrest
        show reverseLoop n (pre.length + 1) _ _ = _
        rw [show pre.length + (x :: (mid ++ [y])).length - 1 - 1 = pre.length + 1 + mid.length - 1 by
          rw [hlen]; omega, hrest]
        simp

/-- **`count_run_asc`** leaves a stable sort of what it takes for a run. -/
theorem countRunAsc_spec [LinearOrder κ] (key : α → κ) {a : List α} (ha : 0 < a.length) :
    ∃ xs ys zs, a = xs ++ ys ∧ 0 < xs.length ∧ StableSort key xs zs
      ∧ countRunAsc key a = some (xs.length, zs ++ ys) := by
  rw [countRunAsc]
  by_cases hshort : a.length ≤ 1
  · obtain ⟨x, rfl⟩ := List.length_eq_one_iff.mp (Nat.le_antisymm hshort ha)
    exact ⟨[x], [], [x], rfl, ha, .refl (List.pairwise_singleton _ x), rfl⟩
  · obtain ⟨x, a, rfl⟩ := List.exists_cons_of_length_pos ha
    obtain ⟨y, a, rfl⟩ : ∃ y a', a = y :: a' := by
      refine List.exists_cons_of_length_pos ?_
      rw [List.length_cons] at hshort
      omega
    have hlen : a.length < (x :: y :: a).length := by
      rw [List.length_cons, List.length_cons]
      omega
    rw [if_neg hshort]
    show ∃ xs ys zs, _ ∧ _ ∧ _ ∧ (if key y < key x then _ else _) = _
    by_cases hdesc : key y < key x
    · have hpair : ([x] ++ [y]).Pairwise fun v w => key w < key v := by
        simpa using hdesc
      obtain ⟨ys, zs, hrest, hrun, hloop⟩ :=
        runLoop_spec (fun v w (h : decide (key w < key v) = true) => of_decide_eq_true h)
          (fun h1 h2 => h2.trans h1) hlen hpair
      have hscan : runLoop (fun v w => decide (key w < key v)) (x :: y :: a) (x :: y :: a).length 1
          = some (1 + ys.length) := hloop
      have hrev := reverseLoop_spec (n := 1 + ys.length + 1 + 1) [] (x :: y :: ys) zs (by
        rw [List.length_cons, List.length_cons]
        omega)
      have hrev' : reverseLoop (1 + ys.length + 1 + 1) 0 (1 + ys.length + 1 - 1) (x :: y :: a)
          = some ((x :: y :: ys).reverse ++ zs) := by
        have hend : 1 + ys.length + 1 - 1 = 0 + (x :: y :: ys).length - 1 := by
          rw [List.length_cons, List.length_cons]
          omega
        rw [hrest, hend]
        exact hrev
      refine ⟨x :: y :: ys, zs, (x :: y :: ys).reverse, by rw [hrest]; rfl, by simp,
        StableSort.reverse hrun, ?_⟩
      rw [if_pos hdesc, hscan]
      show (reverseLoop (1 + ys.length + 1 + 1) 0 (1 + ys.length + 1 - 1) (x :: y :: a)).bind _ = _
      rw [hrev']
      show some (1 + ys.length + 1, _) = some (ys.length + 1 + 1, _)
      rw [show 1 + ys.length + 1 = ys.length + 1 + 1 by omega]
    · have hpair : ([x] ++ [y]).Pairwise fun v w => key v ≤ key w := by
        simpa using not_lt.mp hdesc
      obtain ⟨ys, zs, hrest, hrun, hloop⟩ :=
        runLoop_spec
          (fun v w (h : (!decide (key w < key v)) = true) => show key v ≤ key w by simpa using h)
          le_trans hlen hpair
      have hscan : runLoop (fun v w => !decide (key w < key v)) (x :: y :: a) (x :: y :: a).length 1
          = some (1 + ys.length) := hloop
      refine ⟨x :: y :: ys, zs, x :: y :: ys, by rw [hrest]; rfl, by simp, .refl hrun, ?_⟩
      rw [if_neg hdesc, hscan]
      show some (1 + ys.length + 1, x :: y :: a) = some (ys.length + 1 + 1, _)
      rw [show 1 + ys.length + 1 = ys.length + 1 + 1 by omega, hrest]
      rfl

end Montauk.Sort
