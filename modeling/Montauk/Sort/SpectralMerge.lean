import Mathlib.Data.List.Range
import Montauk.Sort.Forest
import Montauk.Sort.Merge
import Montauk.Sort.Runs

/-!
# sub_spectral_merge

The natural merge sort of the library: detect the runs, at most 511 of them
and one more for what is left, coalesce neighbours that are in order already,
and merge the rest in the order of the resistance of their boundaries. The
resistance is a floating-point number computed from the keys at the boundary;
nothing here depends on which order it gives, so it is a parameter.

The array is always the concatenation of its runs. `SameOrder` says that no
step exchanges equal keys, and at the end the only run left is the sorted
array (`subSpectralMerge_spec`).
-/

namespace Montauk.Sort

variable {α κ ρ : Type}

/-- `sub_run_t`. -/
structure Run where
  base : Nat
  length : Nat
deriving DecidableEq

/-- The size of `detected`, `sbase`, `slen` and `parent`. -/
def maxRuns : Nat := 512

/-- `detected[num_runs++] = r`. -/
def pushRun (runs : List Run) (r : Run) : Option (List Run) :=
  if runs.length < maxRuns then some (runs ++ [r]) else none

section
variable [LinearOrder κ]

/-- The detection loop: the array, the runs, and what is left behind them. -/
def detectLoop (key : α → κ) :
    Nat → List α → Nat → Nat → List Run → Option (List α × Nat × Nat × List Run)
  | 0, _, _, _, _ => none
  | n + 1, arr, cur, remaining, runs =>
      if 0 < remaining ∧ runs.length < maxRuns - 1 then do
        let w ← loadN arr cur remaining
        let (run, w) ← countRunAsc key w
        let arr ← storeN arr cur w
        let runs ← pushRun runs ⟨cur, run⟩
        detectLoop key n arr (cur + run) (remaining - run) runs
      else some (arr, cur, remaining, runs)

/-- The gap heuristic: runs `i`, `i + 1`, ... are joined to the run at `out` as
long as they continue it. -/
def coalesceLoop (key : α → κ) (arr : List α) : Nat → Nat → Nat → List Run → Option (List Run)
  | 0, _, out, runs => some (runs.take (out + 1))
  | n + 1, i, out, runs => do
      let prev ← load runs out
      let next ← load runs i
      let x ← load arr (prev.base + prev.length - 1)
      let y ← load arr next.base
      if key x ≤ key y then
        let runs ← store runs out ⟨prev.base, prev.length + next.length⟩
        coalesceLoop key arr n (i + 1) out runs
      else
        let runs ← store runs (out + 1) next
        coalesceLoop key arr n (i + 1) (out + 1) runs

end

/-- `sub_boundary_t`. -/
structure Boundary (ρ : Type) where
  idx : Nat
  resistance : ρ

/-- The resistances of the `nb` boundaries. -/
def boundaries (resistance : κ → κ → ρ) (key : α → κ) (arr : List α) (runs : List Run) (nb : Nat) :
    Option (List (Boundary ρ)) :=
  if nb < maxRuns then
    (List.range nb).mapM fun i => do
      let left ← load runs i
      let right ← load runs (i + 1)
      let y ← load arr right.base
      let x ← load arr (left.base + left.length - 1)
      some ⟨i, resistance (key y) (key x)⟩
  else none

/-- The array being merged and the bookkeeping of `merge_reff`. -/
structure MergeForest (α : Type) where
  arr : List α
  parent : List Nat
  sbase : List Nat
  slen : List Nat
  minGallop : Nat

/-- Merging the two groups at boundary `b`. -/
def joinBoundary [LinearOrder κ] (key : α → κ) (cap b : Nat) (f : MergeForest α) :
    Option (MergeForest α) := do
  let (left, parent) ← ufFind (f.parent.length + 1) f.parent b
  let (right, parent) ← ufFind (parent.length + 1) parent (b + 1)
  if left = right then some { f with parent }
  else
    let bl ← load f.sbase left
    let br ← load f.sbase right
    let lo := if bl < br then left else right
    let hi := if bl < br then right else left
    let base ← load f.sbase lo
    let len1 ← load f.slen lo
    let len2 ← load f.slen hi
    let w ← loadN f.arr base (len1 + len2)
    let (w, minGallop) ← mergePair key cap len1 len2 f.minGallop w
    let arr ← storeN f.arr base w
    let slen ← store f.slen lo (len1 + len2)
    let parent ← store parent hi lo
    some { f with arr, parent, slen, minGallop }

/-- The merges, in the order of the boundaries. -/
def joinAll [LinearOrder κ] (key : α → κ) (cap : Nat) :
    List (Boundary ρ) → MergeForest α → Option (MergeForest α)
  | [], f => some f
  | b :: bs, f => do
      let f ← joinBoundary key cap b.idx f
      joinAll key cap bs f

def mergeReff [LinearOrder κ] (resistance : κ → κ → ρ) (gt : ρ → ρ → Bool) (key : α → κ)
    (cap minGallop : Nat) (runs : List Run) (arr : List α) : Option (List α) :=
  if runs.length ≤ 1 then some arr
  else if runs.length = 2 then do
    let left ← load runs 0
    let right ← load runs 1
    let w ← loadN arr left.base (left.length + right.length)
    let (w, _) ← mergePair key cap left.length right.length minGallop w
    storeN arr left.base w
  else if runs.length ≤ maxRuns then do
    let bounds ← boundaries resistance key arr runs (runs.length - 1)
    let bounds ← insertionSort (fun b k => gt b.resistance k.resistance) bounds
    let f ← joinAll key cap bounds
      { arr, parent := List.range runs.length, sbase := runs.map Run.base,
        slen := runs.map Run.length, minGallop }
    some f.arr
  else none

def subMinMerge : Nat := 32

/-- Sorting what the detection left over, by insertion when it is short. -/
def sortRest [LinearOrder κ] (key : α → κ) (recur : List α → Option (List α)) (w : List α) :
    Option (List α) :=
  if w.length ≤ 64 then binaryInsertionSort key w else recur w

/-- What is left behind the 511th run is sorted and becomes the last run. -/
def closeRuns [LinearOrder κ] (key : α → κ) (recur : List α → Option (List α)) (arr : List α)
    (cur remaining : Nat) (runs : List Run) : Option (List α × List Run) :=
  if 0 < remaining then do
    let w ← loadN arr cur remaining
    let w ← sortRest key recur w
    let arr ← storeN arr cur w
    let runs ← pushRun runs ⟨cur, remaining⟩
    some (arr, runs)
  else some (arr, runs)

/-- `sub_spectral_merge`, with fuel for the recursion on what is behind the
511th run. `alloc d` says whether the scratch of the call at depth `d` can be
allocated. -/
def subSpectralMerge [LinearOrder κ] (resistance : κ → κ → ρ) (gt : ρ → ρ → Bool) (key : α → κ) :
    Nat → (Nat → Bool) → List α → Option (List α)
  | 0, _, _ => none
  | fuel + 1, alloc, arr =>
      if arr.length < 2 then some arr
      else if arr.length < subMinMerge then binaryInsertionSort key arr
      else do
        let (arr, cur, remaining, runs) ← detectLoop key (arr.length + 1) arr 0 arr.length []
        let (arr, runs) ←
          closeRuns key (subSpectralMerge resistance gt key fuel fun d => alloc (d + 1)) arr cur
            remaining runs
        if runs.length ≤ 1 then some arr
        else
          let runs ← coalesceLoop key arr (runs.length - 1) 1 0 runs
          if runs.length ≤ 1 then some arr
          else if alloc 0 then
            mergeReff resistance gt key (arr.length / 2 + 1) subMinGallop runs arr
          else binaryInsertionSort key arr

/-! ## Runs and the pieces they stand for -/

/-- The runs of the pieces `segs` of an array, the first of them at `b`. -/
def runsOf : Nat → List (List α) → List Run
  | _, [] => []
  | b, s :: segs => ⟨b, s.length⟩ :: runsOf (b + s.length) segs

@[simp] theorem length_runsOf (b : Nat) (segs : List (List α)) :
    (runsOf b segs).length = segs.length := by
  induction segs generalizing b with
  | nil => rfl
  | cons s segs ih => rw [runsOf, List.length_cons, ih, List.length_cons]

theorem runsOf_append (b : Nat) (segs segs' : List (List α)) :
    runsOf b (segs ++ segs') = runsOf b segs ++ runsOf (b + segs.flatten.length) segs' := by
  induction segs generalizing b with
  | nil => rfl
  | cons s segs ih =>
      rw [List.cons_append, runsOf, ih, runsOf, List.flatten_cons, List.length_append,
        Nat.add_assoc]
      rfl

theorem runsOf_concat (segs : List (List α)) (s : List α) :
    runsOf 0 (segs ++ [s]) = runsOf 0 segs ++ [⟨segs.flatten.length, s.length⟩] := by
  rw [runsOf_append, Nat.zero_add]
  rfl

section
variable [LinearOrder κ] {key : α → κ}

/-- Ascending pieces, none of them empty. -/
def Pieces (key : α → κ) (segs : List (List α)) : Prop := ∀ s ∈ segs, s ≠ [] ∧ Ascending key s

theorem Pieces.concat {segs : List (List α)} {s : List α} (h : Pieces key segs) (hne : s ≠ [])
    (hs : Ascending key s) : Pieces key (segs ++ [s]) := by
  intro t ht
  rcases List.mem_append.mp ht with ht | ht
  · exact h t ht
  · rw [List.mem_singleton.mp ht]
    exact ⟨hne, hs⟩

/-! ## Detection -/

theorem pushRun_lt {runs : List Run} {r : Run} (h : runs.length < maxRuns) :
    pushRun runs r = some (runs ++ [r]) :=
  if_pos h

/-- What the detection leaves: runs that stand for ascending pieces, and a
rest behind them only when the list is full. -/
structure Detected (key : α → κ) (orig arr : List α) (segs : List (List α)) (rest : List α) :
    Prop where
  split : arr = segs.flatten ++ rest
  pieces : Pieces key segs
  same : SameOrder key orig arr
  room : segs.length < maxRuns

theorem detectLoop_spec {n : Nat} {orig arr rest : List α} {segs : List (List α)}
    (h : Detected key orig arr segs rest) (hn : rest.length < n) :
    ∃ arr' segs' rest', detectLoop key n arr segs.flatten.length rest.length (runsOf 0 segs)
        = some (arr', segs'.flatten.length, rest'.length, runsOf 0 segs')
      ∧ Detected key orig arr' segs' rest' ∧ (rest' = [] ∨ maxRuns - 1 ≤ segs'.length) := by
  induction n generalizing arr segs rest with
  | zero => exact absurd hn (Nat.not_lt_zero _)
  | succ n ih =>
      rw [detectLoop, length_runsOf]
      by_cases hmore : 0 < rest.length ∧ segs.length < maxRuns - 1
      · obtain ⟨xs, ys, zs, hrest, hxs, hsort, hrun⟩ := countRunAsc_spec key hmore.1
        have hlen : zs.length = xs.length := hsort.length_eq
        have hread : loadN arr segs.flatten.length rest.length = some rest := by
          rw [h.split]
          exact loadN_suffix rfl rfl
        have hwrite : storeN arr segs.flatten.length (zs ++ ys)
            = some (segs.flatten ++ (zs ++ ys)) := by
          rw [h.split, ← List.append_nil (segs.flatten ++ rest), storeN_append rfl, List.append_nil]
          rw [hrest, List.length_append, List.length_append, hlen]
        have hpush : pushRun (runsOf 0 segs) ⟨segs.flatten.length, xs.length⟩
            = some (runsOf 0 (segs ++ [zs])) := by
          rw [pushRun_lt (by rw [length_runsOf]; exact h.room), runsOf_concat, hlen]
        have hnew : Detected key orig (segs.flatten ++ (zs ++ ys)) (segs ++ [zs]) ys := by
          refine ⟨?_, h.pieces.concat ?_ hsort.sorted, ?_, ?_⟩
          · rw [List.flatten_append, List.flatten_singleton, List.append_assoc]
          · exact List.ne_nil_of_length_pos (hlen ▸ hxs)
          · have hsame := h.same
            rw [h.split, hrest, ← List.append_assoc] at hsame
            rw [← List.append_assoc]
            exact hsame.replace hsort.stable
          · rw [List.length_append, List.length_singleton]
            have hmax : maxRuns = 512 := rfl
            omega
        obtain ⟨arr', segs', rest', hloop, hdet⟩ := ih hnew (by
          rw [hrest, List.length_append] at hn
          omega)
        refine ⟨arr', segs', rest', ?_, hdet⟩
        rw [if_pos hmore, hread]
        show (countRunAsc key rest).bind _ = _
        rw [hrun]
        show (storeN arr segs.flatten.length (zs ++ ys)).bind _ = _
        rw [hwrite]
        show (pushRun (runsOf 0 segs) ⟨segs.flatten.length, xs.length⟩).bind _ = _
        rw [hpush, ← hloop]
        have hcur : segs.flatten.length + xs.length = (segs ++ [zs]).flatten.length := by
          rw [List.flatten_append, List.flatten_singleton, List.length_append, hlen]
        have hleft : rest.length - xs.length = ys.length := by
          rw [hrest, List.length_append, Nat.add_sub_cancel_left]
        show detectLoop key n _ (segs.flatten.length + xs.length) (rest.length - xs.length) _ = _
        rw [hcur, hleft]
      · rw [if_neg hmore]
        refine ⟨arr, segs, rest, rfl, h, ?_⟩
        rcases Nat.eq_zero_or_pos rest.length with hnil | hpos
        · exact .inl (List.eq_nil_of_length_eq_zero hnil)
        · exact .inr (Nat.not_lt.mp fun hlt => hmore ⟨hpos, hlt⟩)

/-- An array that consists of its runs. -/
structure Tiled (key : α → κ) (orig arr : List α) (segs : List (List α)) : Prop where
  split : arr = segs.flatten
  pieces : Pieces key segs
  same : SameOrder key orig arr

theorem Tiled.sorted_of_one {orig arr : List α} {segs : List (List α)}
    (h : Tiled key orig arr segs) (hone : segs.length ≤ 1) : Ascending key arr := by
  rw [h.split]
  cases segs with
  | nil => exact List.Pairwise.nil
  | cons s T =>
      rw [List.length_cons] at hone
      have hnil : T = [] := List.eq_nil_of_length_eq_zero (by omega)
      subst hnil
      rw [List.flatten_singleton]
      exact (h.pieces s List.mem_cons_self).2

theorem sortRest_spec {recur : List α → Option (List α)} {w : List α}
    (hrecur : ∃ out, recur w = some out ∧ StableSort key w out) :
    ∃ out, sortRest key recur w = some out ∧ StableSort key w out := by
  rw [sortRest]
  split
  · exact binaryInsertionSort_spec key w
  · exact hrecur

theorem closeRuns_spec {recur : List α → Option (List α)} {orig arr rest : List α}
    {segs : List (List α)} (h : Detected key orig arr segs rest)
    (hrecur : ∃ out, recur rest = some out ∧ StableSort key rest out) :
    ∃ arr' segs', closeRuns key recur arr segs.flatten.length rest.length (runsOf 0 segs)
        = some (arr', runsOf 0 segs')
      ∧ Tiled key orig arr' segs' ∧ segs'.length ≤ maxRuns := by
  rw [closeRuns]
  by_cases hmore : 0 < rest.length
  · obtain ⟨out, hout, hsort⟩ := sortRest_spec hrecur
    have hlen := hsort.length_eq
    have hread : loadN arr segs.flatten.length rest.length = some rest := by
      rw [h.split]
      exact loadN_suffix rfl rfl
    have hwrite : storeN arr segs.flatten.length out = some (segs.flatten ++ out) := by
      rw [h.split, ← List.append_nil (segs.flatten ++ rest), storeN_append rfl hlen, List.append_nil]
    have hpush : pushRun (runsOf 0 segs) ⟨segs.flatten.length, rest.length⟩
        = some (runsOf 0 (segs ++ [out])) := by
      rw [pushRun_lt (by rw [length_runsOf]; exact h.room), runsOf_concat, hlen]
    refine ⟨segs.flatten ++ out, segs ++ [out], ?_, ⟨?_, ?_, ?_⟩, ?_⟩
    · rw [if_pos hmore, hread]
      show (sortRest key recur rest).bind _ = _
      rw [hout]
      show (storeN arr segs.flatten.length out).bind _ = _
      rw [hwrite]
      show (pushRun (runsOf 0 segs) ⟨segs.flatten.length, rest.length⟩).bind _ = _
      rw [hpush]
      rfl
    · rw [List.flatten_append, List.flatten_singleton]
    · exact h.pieces.concat (List.ne_nil_of_length_pos (hlen ▸ hmore)) hsort.sorted
    · have hsame := h.same
      rw [h.split, ← List.append_nil (segs.flatten ++ rest)] at hsame
      have hnew := hsame.replace hsort.stable
      rwa [List.append_nil] at hnew
    · rw [List.length_append, List.length_singleton]
      exact h.room
  · have hnil : rest = [] := List.eq_nil_of_length_eq_zero (Nat.eq_zero_of_not_pos hmore)
    refine ⟨arr, segs, if_neg hmore, ⟨?_, h.pieces, h.same⟩, h.room.le⟩
    rw [h.split, hnil, List.append_nil]

/-! ## The gap heuristic -/

/-- Joining the runs that continue the one before them leaves runs of longer
ascending pieces of the same array. -/
theorem coalesceLoop_spec {arr : List α} {n : Nat} {S : List (List α)} {s : List α}
    {J : List Run} {T : List (List α)} (hn : T.length = n) (hS : Pieces key (S ++ [s]))
    (hT : Pieces key T) (harr : arr = (S ++ [s] ++ T).flatten) :
    ∃ segs, coalesceLoop key arr n (S.length + 1 + J.length) S.length
        (runsOf 0 (S ++ [s]) ++ J ++ runsOf (S ++ [s]).flatten.length T) = some (runsOf 0 segs)
      ∧ Pieces key segs ∧ arr = segs.flatten ∧ segs.length ≤ (S ++ [s] ++ T).length := by
  induction n generalizing S s J T with
  | zero =>
      have hnil : T = [] := List.eq_nil_of_length_eq_zero hn
      subst hnil
      refine ⟨S ++ [s], ?_, hS, by rw [harr, List.append_nil], by rw [List.append_nil]⟩
      rw [coalesceLoop, List.append_assoc, List.take_left']
      rw [length_runsOf, List.length_append, List.length_singleton]
  | succ n ih =>
      obtain ⟨t, T, rfl⟩ := List.exists_cons_of_length_pos (show 0 < T.length by omega)
      have hT' : Pieces key T := fun u hu => hT u (List.mem_cons_of_mem _ hu)
      obtain ⟨hsne, hsasc⟩ := hS s (by simp)
      obtain ⟨htne, htasc⟩ := hT t List.mem_cons_self
      obtain ⟨s0, x, hx⟩ := exists_concat (List.length_pos_of_ne_nil hsne)
      obtain ⟨y, t0, hy⟩ := List.exists_cons_of_ne_nil htne
      have hflat : (S ++ [s]).flatten.length = S.flatten.length + s.length := by
        rw [List.flatten_append, List.flatten_singleton, List.length_append]
      have hloadOut : load (runsOf 0 (S ++ [s]) ++ J ++ runsOf (S ++ [s]).flatten.length (t :: T))
          S.length = some ⟨S.flatten.length, s.length⟩ := by
        rw [runsOf_concat, List.append_assoc, List.append_assoc]
        exact load_append (length_runsOf 0 S).symm
      have hloadNext : load (runsOf 0 (S ++ [s]) ++ J ++ runsOf (S ++ [s]).flatten.length (t :: T))
          (S.length + 1 + J.length) = some ⟨(S ++ [s]).flatten.length, t.length⟩ := by
        refine load_append ?_
        rw [List.length_append, length_runsOf, List.length_append, List.length_singleton]
      have hloadX : load arr (S.flatten.length + s.length - 1) = some x := by
        have hparts : arr = S.flatten ++ s0 ++ x :: (t :: T).flatten := by
          rw [harr, hx]
          simp
        rw [hparts]
        refine load_append ?_
        rw [hx]
        simp only [List.length_append, List.length_singleton]
        omega
      have hloadY : load arr (S ++ [s]).flatten.length = some y := by
        have hparts : arr = (S ++ [s]).flatten ++ y :: (t0 ++ T.flatten) := by
          rw [harr, hy]
          simp
        rw [hparts]
        exact load_append rfl
      rw [coalesceLoop, hloadOut]
      show ∃ segs, (load _ (S.length + 1 + J.length)).bind _ = _ ∧ _
      rw [hloadNext]
      show ∃ segs, (load arr (S.flatten.length + s.length - 1)).bind _ = _ ∧ _
      rw [hloadX]
      show ∃ segs, (load arr (S ++ [s]).flatten.length).bind _ = _ ∧ _
      rw [hloadY]
      show ∃ segs, (if key x ≤ key y then _ else _) = _ ∧ _
      by_cases hxy : key x ≤ key y
      · -- the run at `out` grows
        have hstore : store
            (runsOf 0 (S ++ [s]) ++ J ++ runsOf (S ++ [s]).flatten.length (t :: T)) S.length
            ⟨S.flatten.length, s.length + t.length⟩
            = some (runsOf 0 (S ++ [s ++ t])
                ++ (J ++ [⟨(S ++ [s]).flatten.length, t.length⟩])
                ++ runsOf (S ++ [s ++ t]).flatten.length T) := by
          have hnext : (S ++ [s ++ t]).flatten.length = (S ++ [s]).flatten.length + t.length := by
            simp [Nat.add_assoc]
          rw [runsOf_concat, runsOf_concat, List.append_assoc, List.append_assoc, hnext,
            List.length_append]
          show store (runsOf 0 S ++ _ :: _) S.length _ = _
          rw [store_append (length_runsOf 0 S).symm]
          simp [runsOf]
        have hS' : Pieces key (S ++ [s ++ t]) := by
          refine Pieces.concat (fun u hu => hS u (List.mem_append_left _ hu)) (by simp [hsne]) ?_
          refine hsasc.append htasc fun v hv w hw => ?_
          exact ((hx ▸ hsasc).le_last v (hx ▸ hv)).trans (hxy.trans ((hy ▸ htasc).head_le w (hy ▸ hw)))
        obtain ⟨segs, hloop, hsegs, hflat', hcount⟩ :=
          ih (S := S) (s := s ++ t) (J := J ++ [⟨(S ++ [s]).flatten.length, t.length⟩]) (T := T)
            (by rw [List.length_cons] at hn; omega) hS' hT' (by rw [harr]; simp)
        refine ⟨segs, ?_, hsegs, hflat', ?_⟩
        · rw [if_pos hxy, hstore]
          rw [List.length_append, List.length_singleton, ← Nat.add_assoc] at hloop
          exact hloop
        · simp only [List.length_append, List.length_cons] at hcount ⊢
          omega
      · -- a new run starts behind it
        have hstore : store
            (runsOf 0 (S ++ [s]) ++ J ++ runsOf (S ++ [s]).flatten.length (t :: T)) (S.length + 1)
            ⟨(S ++ [s]).flatten.length, t.length⟩
            = some (runsOf 0 (S ++ [s] ++ [t])
                ++ (J ++ [(⟨(S ++ [s]).flatten.length, t.length⟩ : Run)]).drop 1
                ++ runsOf (S ++ [s] ++ [t]).flatten.length T) := by
          have hrest : (S ++ [s] ++ [t]).flatten.length = (S ++ [s]).flatten.length + t.length := by
            simp [Nat.add_assoc]
          rw [runsOf_concat (S ++ [s]) t, store_eq_storeN, List.append_assoc, storeN_append_drop
            (by rw [length_runsOf, List.length_append, List.length_singleton])
            (by simp [runsOf]; omega), hrest]
          have hdrop : (J ++ runsOf (S ++ [s]).flatten.length (t :: T)).drop 1
              = (J ++ [(⟨(S ++ [s]).flatten.length, t.length⟩ : Run)]).drop 1
                ++ runsOf ((S ++ [s]).flatten.length + t.length) T := by
            rw [← List.drop_append_of_le_length (by simp), List.append_assoc]
            rfl
          rw [List.length_singleton, hdrop]
          simp only [List.append_assoc]
        obtain ⟨segs, hloop, hsegs, hflat', hcount⟩ :=
          ih (S := S ++ [s]) (s := t)
            (J := (J ++ [(⟨(S ++ [s]).flatten.length, t.length⟩ : Run)]).drop 1) (T := T)
            (by rw [List.length_cons] at hn; omega) (hS.concat htne htasc) hT' (by rw [harr]; simp)
        refine ⟨segs, ?_, hsegs, hflat', ?_⟩
        · rw [if_neg hxy, hstore]
          have hindex : (S ++ [s]).length + 1
              + ((J ++ [(⟨(S ++ [s]).flatten.length, t.length⟩ : Run)]).drop 1).length
                = S.length + 1 + J.length + 1 := by
            simp only [List.length_append, List.length_singleton, List.length_drop]
            omega
          rw [hindex, List.length_append, List.length_singleton] at hloop
          exact hloop
        · simp only [List.length_append, List.length_cons, List.length_nil] at hcount ⊢
          omega

/-! ## Merging at the boundaries -/

section
variable {bnd : Nat → Nat} {m : Nat} {D : Nat → Prop} {orig : List α} {f : MergeForest α}

/-- The part of an array between two bounds. -/
def slice (arr : List α) (i j : Nat) : List α := (arr.drop i).take (j - i)

theorem length_slice {arr : List α} {i j : Nat} (hj : j ≤ arr.length) :
    (slice arr i j).length = j - i := by
  rw [slice, List.length_take, List.length_drop]
  omega

theorem split_slices (arr : List α) {i j k : Nat} (hij : i ≤ j) (hjk : j ≤ k) :
    arr = arr.take i ++ (slice arr i j ++ slice arr j k) ++ arr.drop k := by
  have hjoin : slice arr i j ++ slice arr j k = (arr.drop i).take (k - i) := by
    have hdrop : arr.drop j = (arr.drop i).drop (j - i) := by
      rw [List.drop_drop]
      congr 1
      omega
    rw [slice, slice, hdrop, ← List.take_add]
    congr 1
    omega
  have hrest : arr.drop k = (arr.drop i).drop (k - i) := by
    rw [List.drop_drop]
    congr 1
    omega
  rw [hjoin, hrest, List.append_assoc, List.take_append_drop, List.take_append_drop]

theorem slice_middle {pre w post : List α} {i j : Nat} (hi : i = pre.length)
    (hj : j = pre.length + w.length) : slice (pre ++ w ++ post) i j = w := by
  rw [slice, hi, hj, List.append_assoc, List.drop_left, Nat.add_sub_cancel_left, List.take_left]

/-- A slice in front of a window or behind it does not see the window. -/
theorem slice_apart {pre w w' post : List α} {i j : Nat} (hw : w'.length = w.length) (hij : i ≤ j)
    (hapart : j ≤ pre.length ∨ pre.length + w.length ≤ i) :
    slice (pre ++ w' ++ post) i j = slice (pre ++ w ++ post) i j := by
  rcases hapart with hfront | hback
  · have hpre : ∀ v : List α, slice (pre ++ v ++ post) i j = slice pre i j := by
      intro v
      rw [slice, List.append_assoc, List.drop_append_of_le_length (by omega),
        List.take_append_of_le_length (by rw [List.length_drop]; omega), slice]
    rw [hpre, hpre]
  · have hpost : ∀ v : List α, v.length = w.length →
        (pre ++ v ++ post).drop i = post.drop (i - (pre.length + w.length)) := by
      intro v hv
      rw [List.drop_append, List.drop_eq_nil_of_le (by rw [List.length_append]; omega),
        List.nil_append, List.length_append, hv]
    rw [slice, slice, hpost w' hw, hpost w rfl]

/-- The state between two merges of `merge_reff`, with the boundaries in `D`
merged. -/
structure ReffInv (key : α → κ) (bnd : Nat → Nat) (m : Nat) (orig : List α) (D : Nat → Prop)
    (f : MergeForest α) : Prop where
  len : f.arr.length = bnd m
  same : SameOrder key orig f.arr
  sorted : ∀ x e, Group D m x e → Ascending key (slice f.arr (bnd x) (bnd e))
  roots : Roots D m f.parent
  sbase : ∀ x < m, load f.sbase x = some (bnd x)
  slen : ∀ x e, Group D m x e → load f.slen x = some (bnd e - bnd x)
  room : m ≤ f.slen.length

theorem joinBoundary_spec (hmono : ∀ {i j}, i < j → j ≤ m → bnd i < bnd j)
    (h : ReffInv key bnd m orig D f) {b cap : Nat} (hb : b + 1 < m) (hnew : ¬ D b)
    (hcap : bnd m / 2 ≤ cap) :
    ∃ f', joinBoundary key cap b f = some f' ∧ ReffInv key bnd m orig (joinAt D b) f' := by
  obtain ⟨r, parent₁, hfind₁, hroots₁, hrb, hstart, hjoin⟩ :=
    ufFind_spec (n := f.parent.length + 1) h.roots (x := b) (by omega)
      (by have := h.roots.length_le; omega)
  obtain ⟨r₂, parent₂, hfind₂, hroots₂, hr₂, hstart₂, hjoin₂⟩ :=
    ufFind_spec (n := parent₁.length + 1) hroots₁ (x := b + 1) hb
      (by have := hroots₁.length_le; omega)
  have hright : Start D (b + 1) := .inr hnew
  obtain rfl : r₂ = b + 1 := hstart₂.eq_of_joined hright hr₂ (Nat.le_refl _) hjoin₂ (.refl _)
  have hgr : Group D m r (b + 1) := ⟨by omega, by omega, hstart, hjoin, .inr hnew⟩
  obtain ⟨e, hge⟩ := hright.exists_group hb
  have hr : r < m := by omega
  have hlt₁ : bnd r < bnd (b + 1) := hmono hgr.lt hgr.le
  have hlt₂ : bnd (b + 1) < bnd e := hmono hge.lt hge.le
  have hle : bnd e ≤ bnd m := by
    rcases Nat.eq_or_lt_of_le hge.le with rfl | hlt
    · exact Nat.le_refl _
    · exact (hmono hlt (Nat.le_refl m)).le
  have hlen := h.len
  -- the two groups, and what is around them
  have hL := h.sorted r (b + 1) hgr
  have hR := h.sorted (b + 1) e hge
  have hlenL : (slice f.arr (bnd r) (bnd (b + 1))).length = bnd (b + 1) - bnd r :=
    length_slice (by omega)
  have hlenR : (slice f.arr (bnd (b + 1)) (bnd e)).length = bnd e - bnd (b + 1) :=
    length_slice (by omega)
  have hsplit := split_slices f.arr hlt₁.le hlt₂.le
  generalize slice f.arr (bnd r) (bnd (b + 1)) = L at hL hlenL hsplit
  generalize slice f.arr (bnd (b + 1)) (bnd e) = R at hR hlenR hsplit
  have hpre : (f.arr.take (bnd r)).length = bnd r := by
    rw [List.length_take]
    omega
  generalize f.arr.take (bnd r) = pre at hpre hsplit
  generalize f.arr.drop (bnd e) = post at hsplit
  obtain ⟨g, hmerge⟩ : ∃ g, mergePair key cap L.length R.length f.minGallop (L ++ R)
      = some (mergeBy key L R, g) := mergePair_spec hL hR (by omega)
  rw [hlenL, hlenR] at hmerge
  have hread : loadN f.arr (bnd r) (bnd (b + 1) - bnd r + (bnd e - bnd (b + 1)))
      = some (L ++ R) := by
    rw [hsplit]
    exact loadN_append hpre.symm (by rw [List.length_append, hlenL, hlenR])
  have hwrite : storeN f.arr (bnd r) (mergeBy key L R) = some (pre ++ mergeBy key L R ++ post) := by
    rw [hsplit]
    exact storeN_append hpre.symm (by rw [length_mergeBy, List.length_append])
  obtain ⟨parent₃, hset, hroots₃⟩ := hroots₂.join hb hrb hjoin
  have hroom := h.room
  refine ⟨⟨pre ++ mergeBy key L R ++ post, parent₃, f.sbase,
    f.slen.set r (bnd (b + 1) - bnd r + (bnd e - bnd (b + 1))), g⟩, ?_, ?_⟩
  · have hslen : store f.slen r (bnd (b + 1) - bnd r + (bnd e - bnd (b + 1))) = some _ :=
      if_pos (show r < f.slen.length by omega)
    rw [joinBoundary, hfind₁]
    show (ufFind (parent₁.length + 1) parent₁ (b + 1)).bind _ = _
    rw [hfind₂]
    show (if r = b + 1 then _ else _) = _
    rw [if_neg (by omega)]
    show (load f.sbase r).bind _ = _
    rw [h.sbase r hr]
    show (load f.sbase (b + 1)).bind _ = _
    rw [h.sbase (b + 1) hb]
    show (load f.sbase (if bnd r < bnd (b + 1) then r else b + 1)).bind _ = _
    rw [if_pos hlt₁, if_pos hlt₁, h.sbase r hr]
    show (load f.slen r).bind _ = _
    rw [h.slen r (b + 1) hgr]
    show (load f.slen (b + 1)).bind _ = _
    rw [h.slen (b + 1) e hge]
    show (loadN f.arr (bnd r) _).bind _ = _
    rw [hread]
    show (mergePair key cap _ _ f.minGallop (L ++ R)).bind _ = _
    rw [hmerge]
    show (storeN f.arr (bnd r) (mergeBy key L R)).bind _ = _
    rw [hwrite]
    show (store f.slen r _).bind _ = _
    rw [hslen]
    show (store parent₂ (b + 1) r).bind _ = _
    rw [hset]
    rfl
  · have hlenLR : (mergeBy key L R).length = (L ++ R).length := by
      rw [length_mergeBy, List.length_append]
    refine ⟨?_, ?_, ?_, hroots₃, h.sbase, ?_, ?_⟩
    · rw [← hlen, hsplit]
      simp only [List.length_append, length_mergeBy]
    · have hsame := h.same
      rw [hsplit] at hsame
      refine hsame.replace fun k => ?_
      rw [ofKey_mergeBy k hL, ofKey_append]
    · intro x y hxy
      rcases Group.of_joinAt hgr hge hxy with ⟨rfl, rfl⟩ | ⟨hold, hapart⟩
      · rw [slice_middle hpre.symm (by rw [hlenLR, List.length_append, hlenL, hlenR, hpre]; omega)]
        exact hL.mergeBy hR
      · have hxylt := hmono hold.lt hold.le
        have hfar : bnd y ≤ pre.length ∨ pre.length + (L ++ R).length ≤ bnd x := by
          rw [hpre, List.length_append, hlenL, hlenR]
          rcases hapart with hyr | hex
          · left
            rcases Nat.eq_or_lt_of_le hyr with rfl | hlt
            · exact Nat.le_refl _
            · exact (hmono hlt (by omega)).le
          · right
            have hle' : bnd e ≤ bnd x := by
              rcases Nat.eq_or_lt_of_le hex with rfl | hlt
              · exact Nat.le_refl _
              · exact (hmono hlt (by have := hold.lt; have := hold.le; omega)).le
            omega
        show Ascending key (slice (pre ++ mergeBy key L R ++ post) (bnd x) (bnd y))
        rw [slice_apart hlenLR hxylt.le hfar, ← hsplit]
        exact h.sorted x y hold
    · intro x y hxy
      rcases Group.of_joinAt hgr hge hxy with ⟨rfl, rfl⟩ | ⟨hold, hapart⟩
      · rw [load, List.getElem?_set_self (by omega)]
        congr 1
        omega
      · have hne : r ≠ x := by
          rintro rfl
          have := hold.lt
          have := hge.lt
          omega
        rw [load, List.getElem?_set_ne hne]
        exact h.slen x y hold
    · rw [List.length_set]
      exact hroom

/-- Merging at a list of boundaries, whatever their order. -/
theorem joinAll_spec (hmono : ∀ {i j}, i < j → j ≤ m → bnd i < bnd j)
    {bs : List (Boundary ρ)} {cap : Nat} (h : ReffInv key bnd m orig D f)
    (hnodup : (bs.map Boundary.idx).Nodup) (hnew : ∀ b ∈ bs, b.idx + 1 < m ∧ ¬ D b.idx)
    (hcap : bnd m / 2 ≤ cap) :
    ∃ f', joinAll key cap bs f = some f'
      ∧ ReffInv key bnd m orig (fun j => D j ∨ j ∈ bs.map Boundary.idx) f' := by
  induction bs generalizing D f with
  | nil =>
      refine ⟨f, rfl, ?_⟩
      have hD : (fun j => D j ∨ j ∈ ([] : List (Boundary ρ)).map Boundary.idx) = D := by
        funext j
        simp
      rw [hD]
      exact h
  | cons b bs ih =>
      obtain ⟨hlt, hb⟩ := hnew b List.mem_cons_self
      obtain ⟨f₁, hf₁, h₁⟩ := joinBoundary_spec hmono h hlt hb hcap
      obtain ⟨hnot, hnodup'⟩ := List.nodup_cons.mp hnodup
      obtain ⟨f', hf', h'⟩ := ih h₁ hnodup' (by
        intro c hc
        refine ⟨(hnew c (List.mem_cons_of_mem _ hc)).1, fun hD => ?_⟩
        rcases hD with hD | hD
        · exact (hnew c (List.mem_cons_of_mem _ hc)).2 hD
        · exact hnot (hD ▸ List.mem_map_of_mem hc))
      refine ⟨f', ?_, ?_⟩
      · rw [joinAll, hf₁]
        exact hf'
      · have hD : (fun j => joinAt D b.idx j ∨ j ∈ bs.map Boundary.idx)
            = fun j => D j ∨ j ∈ (b :: bs).map Boundary.idx := by
          funext j
          rw [List.map_cons, List.mem_cons, joinAt, or_assoc]
        rw [← hD]
        exact h'

/-- Where piece `i` starts. -/
def bound (segs : List (List α)) (i : Nat) : Nat := (segs.take i).flatten.length

theorem bound_succ {segs : List (List α)} {i : Nat} (hi : i < segs.length) :
    bound segs (i + 1) = bound segs i + segs[i].length := by
  rw [bound, List.take_add_one, List.getElem?_eq_getElem hi, Option.toList_some,
    List.flatten_append, List.flatten_singleton, List.length_append, bound]

theorem bound_length (segs : List (List α)) : bound segs segs.length = segs.flatten.length := by
  rw [bound, List.take_length]

theorem bound_lt {segs : List (List α)} (h : ∀ s ∈ segs, s ≠ []) {i j : Nat} (hij : i < j)
    (hj : j ≤ segs.length) : bound segs i < bound segs j := by
  induction j with
  | zero => exact absurd hij (Nat.not_lt_zero _)
  | succ j ih =>
      have hpos := List.length_pos_of_ne_nil (h segs[j] (List.getElem_mem (by omega)))
      rw [bound_succ (by omega)]
      rcases Nat.eq_or_lt_of_le (Nat.le_of_lt_succ hij) with rfl | hlt
      · omega
      · have := ih hlt (by omega)
        omega

theorem load_runsOf {segs : List (List α)} {i : Nat} (hi : i < segs.length) (b : Nat) :
    load (runsOf b segs) i = some ⟨b + bound segs i, segs[i].length⟩ := by
  induction segs generalizing b i with
  | nil => exact absurd hi (Nat.not_lt_zero _)
  | cons s segs ih =>
      cases i with
      | zero => rfl
      | succ i =>
          rw [List.length_cons] at hi
          have h := ih (Nat.lt_of_succ_lt_succ hi) (b + s.length)
          rw [bound, List.take_succ_cons, List.flatten_cons, List.length_append, ← Nat.add_assoc]
          exact h

theorem slice_bound {segs : List (List α)} {i : Nat} (hi : i < segs.length) :
    slice segs.flatten (bound segs i) (bound segs (i + 1)) = segs[i] := by
  have hsplit : segs.flatten
      = (segs.take i).flatten ++ segs[i] ++ (segs.drop (i + 1)).flatten := by
    rw [List.append_assoc, ← List.flatten_cons, List.getElem_cons_drop, ← List.flatten_append,
      List.take_append_drop]
  rw [hsplit]
  exact slice_middle rfl (bound_succ hi)

theorem mapM_exists {β γ : Type} {g : β → Option γ} {v : γ → β} {xs : List β}
    (h : ∀ x ∈ xs, ∃ y, g x = some y ∧ v y = x) : ∃ ys, xs.mapM g = some ys ∧ ys.map v = xs := by
  induction xs with
  | nil => exact ⟨[], rfl, rfl⟩
  | cons x xs ih =>
      obtain ⟨y, hy, hv⟩ := h x List.mem_cons_self
      obtain ⟨ys, hys, hvs⟩ := ih fun z hz => h z (List.mem_cons_of_mem _ hz)
      refine ⟨y :: ys, ?_, by rw [List.map_cons, hv, hvs]⟩
      rw [List.mapM_cons, hy, hys]
      rfl

theorem boundaries_spec (resistance : κ → κ → ρ) {segs : List (List α)} (h : Pieces key segs)
    {nb : Nat} (hnb : nb + 1 = segs.length) (hroom : segs.length ≤ maxRuns) :
    ∃ bs, boundaries resistance key segs.flatten (runsOf 0 segs) nb = some bs
      ∧ bs.map Boundary.idx = List.range nb := by
  have hne : ∀ s ∈ segs, s ≠ [] := fun s hs => (h s hs).1
  have hend : bound segs segs.length = segs.flatten.length := bound_length segs
  rw [boundaries, if_pos (by omega)]
  refine mapM_exists fun i hi => ?_
  have hlt := List.mem_range.mp hi
  have hbase : bound segs (i + 1) < segs.flatten.length := by
    have := bound_lt hne (show i + 1 < segs.length by omega) (Nat.le_refl _)
    omega
  have hprev : bound segs i < bound segs (i + 1) := bound_lt hne (Nat.lt_succ_self i) (by omega)
  have hsucc : bound segs (i + 1) = bound segs i + segs[i].length := bound_succ (by omega)
  refine ⟨⟨i, resistance (key segs.flatten[bound segs (i + 1)])
    (key (segs.flatten[bound segs i + segs[i].length - 1]))⟩, ?_, rfl⟩
  rw [load_runsOf (by omega)]
  show (load (runsOf 0 segs) (i + 1)).bind _ = _
  rw [load_runsOf (by omega)]
  show (load segs.flatten (0 + bound segs (i + 1))).bind _ = _
  rw [Nat.zero_add, load_of_lt hbase]
  show (load segs.flatten (0 + bound segs i + segs[i].length - 1)).bind _ = _
  rw [Nat.zero_add, load_of_lt (by omega)]
  rfl

theorem ReffInv.init {segs : List (List α)} (h : Pieces key segs)
    (hsame : SameOrder key orig segs.flatten) (minGallop : Nat) :
    ReffInv key (bound segs) segs.length orig (fun _ => False)
      { arr := segs.flatten, parent := List.range segs.length,
        sbase := (runsOf 0 segs).map Run.base, slen := (runsOf 0 segs).map Run.length,
        minGallop } := by
  have hone : ∀ x e, Group (fun _ => False) segs.length x e → e = x + 1 := by
    intro x e hg
    have hlt := hg.lt
    by_contra hne
    exact hg.joined x (Nat.le_refl x) (by omega)
  refine ⟨(bound_length segs).symm, hsame, ?_, Roots.range _, ?_, ?_, ?_⟩
  · intro x e hg
    have hx : x < segs.length := Nat.lt_of_lt_of_le hg.lt hg.le
    rw [hone x e hg, slice_bound hx]
    exact (h _ (List.getElem_mem hx)).2
  · intro x hx
    have hload := load_runsOf hx 0
    rw [load] at hload
    rw [load, List.getElem?_map, hload, Nat.zero_add]
    rfl
  · intro x e hg
    have hx : x < segs.length := Nat.lt_of_lt_of_le hg.lt hg.le
    have hload := load_runsOf hx 0
    rw [load] at hload
    rw [load, List.getElem?_map, hload, hone x e hg, bound_succ hx, Nat.add_sub_cancel_left]
    rfl
  · rw [List.length_map, length_runsOf]

/-- **`merge_reff` sorts** an array of at least two ascending pieces. -/
theorem mergeReff_spec (resistance : κ → κ → ρ) (gt : ρ → ρ → Bool) {segs : List (List α)}
    {arr : List α} (h : Tiled key orig arr segs) (htwo : 1 < segs.length)
    (hroom : segs.length ≤ maxRuns) {cap minGallop : Nat} (hcap : arr.length / 2 ≤ cap) :
    ∃ out, mergeReff resistance gt key cap minGallop (runsOf 0 segs) arr = some out
      ∧ StableSort key orig out := by
  rw [mergeReff, length_runsOf, if_neg (by omega)]
  by_cases hpair : segs.length = 2
  · obtain ⟨L, R, rfl⟩ := List.length_eq_two.mp hpair
    have hL := (h.pieces L (by simp)).2
    have hR := (h.pieces R (by simp)).2
    have harr : arr = L ++ R := by
      rw [h.split]
      simp
    have hsame := h.same
    rw [harr] at hsame hcap ⊢
    rw [List.length_append] at hcap
    obtain ⟨g, hg⟩ : ∃ g, mergePair key cap L.length R.length minGallop (L ++ R)
        = some (mergeBy key L R, g) := mergePair_spec hL hR (by omega)
    refine ⟨mergeBy key L R, ?_, hL.mergeBy hR, ?_⟩
    · rw [if_pos hpair]
      show (loadN (L ++ R) 0 (L.length + R.length)).bind _ = _
      have hread : loadN (L ++ R) 0 (L.length + R.length) = some (L ++ R) := by
        have hall : loadN (L ++ R ++ []) 0 (L.length + R.length) = some (L ++ R) :=
          loadN_front List.length_append.symm
        rwa [List.append_nil] at hall
      rw [hread]
      show (mergePair key cap L.length R.length minGallop (L ++ R)).bind _ = _
      rw [hg]
      show storeN (L ++ R) 0 (mergeBy key L R) = _
      have hwrite : storeN (L ++ R ++ []) 0 (mergeBy key L R) = some (mergeBy key L R ++ []) :=
        storeN_front (by rw [length_mergeBy, List.length_append])
      rwa [List.append_nil, List.append_nil] at hwrite
    · intro k
      rw [ofKey_mergeBy k hL, ← ofKey_append, hsame k]
  · rw [if_neg hpair, if_pos hroom]
    have hne : ∀ s ∈ segs, s ≠ [] := fun s hs => (h.pieces s hs).1
    have hend := bound_length segs
    obtain ⟨bs, hbs, hidx⟩ := boundaries_spec resistance h.pieces
      (show segs.length - 1 + 1 = segs.length by omega) hroom
    obtain ⟨bs', hsort, hperm⟩ :=
      insertionSort_perm (fun b k : Boundary ρ => gt b.resistance k.resistance) bs
    have hidx' : (bs'.map Boundary.idx).Perm (List.range (segs.length - 1)) := by
      rw [← hidx]
      exact hperm.map _
    have hsame := h.same
    rw [h.split] at hsame hcap ⊢
    obtain ⟨f, hf, hinv⟩ := joinAll_spec (fun hij hj => bound_lt hne hij hj)
      (ReffInv.init h.pieces hsame minGallop) (hidx'.nodup_iff.mpr List.nodup_range) (by
        intro b hb
        have hmem := hidx'.mem_iff.mp (List.mem_map_of_mem hb)
        rw [List.mem_range] at hmem
        exact ⟨by omega, id⟩) (show bound segs segs.length / 2 ≤ cap by rw [hend]; exact hcap)
    have hwhole : Group (fun j => False ∨ j ∈ bs'.map Boundary.idx) segs.length 0 segs.length := by
      refine ⟨by omega, Nat.le_refl _, .inl rfl, fun j _ hj => .inr ?_, .inl rfl⟩
      rw [hidx'.mem_iff, List.mem_range]
      exact hj
    refine ⟨f.arr, ?_, ?_, hinv.same⟩
    · rw [hbs]
      show (insertionSort _ bs).bind _ = _
      rw [hsort]
      show (joinAll key cap bs' _).bind _ = _
      rw [hf]
      rfl
    · have hsorted := hinv.sorted 0 segs.length hwhole
      have hall : slice f.arr (bound segs 0) (bound segs segs.length) = f.arr := by
        rw [← hinv.len]
        show (f.arr.drop 0).take (f.arr.length - 0) = f.arr
        rw [List.drop_zero, Nat.sub_zero, List.take_length]
      rwa [hall] at hsorted

end

end

/-! ## The whole sort -/

section
variable [LinearOrder κ]

/-- **`sub_spectral_merge` is a stable sort** and stays in bounds, whatever
order the resistances give and whether or not the scratch can be allocated:
every index is inside its array, or the run would be `none`. -/
theorem subSpectralMerge_stable (resistance : κ → κ → ρ) (gt : ρ → ρ → Bool) (key : α → κ) :
    ∀ (fuel : Nat) (alloc : Nat → Bool) (arr : List α), arr.length < fuel →
      ∃ out, subSpectralMerge resistance gt key fuel alloc arr = some out
        ∧ StableSort key arr out
  | 0, _, _, hfuel => absurd hfuel (Nat.not_lt_zero _)
  | fuel + 1, alloc, arr, hfuel => by
      rw [subSpectralMerge]
      by_cases hsmall : arr.length < 2
      · rw [if_pos hsmall]
        refine ⟨arr, rfl, .refl ?_⟩
        cases arr with
        | nil => exact List.Pairwise.nil
        | cons x arr =>
            rw [List.length_cons] at hsmall
            have hnil : arr = [] := List.eq_nil_of_length_eq_zero (by omega)
            rw [hnil]
            exact List.pairwise_singleton _ x
      · rw [if_neg hsmall]
        by_cases hmin : arr.length < subMinMerge
        · rw [if_pos hmin]
          exact binaryInsertionSort_spec key arr
        · rw [if_neg hmin]
          have hstart : Detected key arr arr [] arr :=
            ⟨rfl, fun _ h => absurd h List.not_mem_nil, fun _ => rfl, Nat.zero_lt_succ _⟩
          obtain ⟨arr₁, segs₁, rest, hdetect, hdet, hstop⟩ :=
            detectLoop_spec (n := arr.length + 1) hstart (Nat.lt_succ_self _)
          -- what is left over is shorter: there is a run in front of it
          have hshorter : rest.length < fuel := by
            have hlen := hdet.same.perm.length_eq
            rw [hdet.split, List.length_append] at hlen
            have hmin' : subMinMerge = 32 := rfl
            rcases hstop with rfl | hsegs
            · rw [List.length_nil]
              omega
            · have hmax : maxRuns = 512 := rfl
              have hfirst := bound_lt (fun s hs => (hdet.pieces s hs).1)
                (show 0 < segs₁.length by omega) (Nat.le_refl _)
              rw [bound_length] at hfirst
              omega
          obtain ⟨arr₂, segs₂, hclose, htiled, hroom⟩ := closeRuns_spec hdet
            (subSpectralMerge_stable resistance gt key fuel (fun d => alloc (d + 1)) rest hshorter)
          show ∃ out, (detectLoop key (arr.length + 1) arr 0 arr.length []).bind _ = _ ∧ _
          have hdetect' : detectLoop key (arr.length + 1) arr 0 arr.length []
              = some (arr₁, segs₁.flatten.length, rest.length, runsOf 0 segs₁) := hdetect
          rw [hdetect']
          show ∃ out, (closeRuns key _ arr₁ segs₁.flatten.length rest.length (runsOf 0 segs₁)).bind _
            = _ ∧ _
          rw [hclose]
          show ∃ out, (if (runsOf 0 segs₂).length ≤ 1 then _ else _) = _ ∧ _
          by_cases hone : (runsOf 0 segs₂).length ≤ 1
          · rw [if_pos hone]
            rw [length_runsOf] at hone
            exact ⟨arr₂, rfl, htiled.sorted_of_one hone, htiled.same⟩
          · rw [if_neg hone]
            rw [length_runsOf] at hone
            obtain ⟨s, T, rfl⟩ := List.exists_cons_of_length_pos (show 0 < segs₂.length by omega)
            obtain ⟨segs₃, hcoalesce, hpieces, hsplit, hcount⟩ :=
              coalesceLoop_spec (n := T.length) (S := []) (s := s) (J := []) (T := T) rfl
                (fun u hu => htiled.pieces u (by
                  rw [List.nil_append, List.mem_singleton] at hu
                  rw [hu]
                  exact List.mem_cons_self))
                (fun u hu => htiled.pieces u (List.mem_cons_of_mem _ hu)) htiled.split
            have hcoalesce' : coalesceLoop key arr₂ ((runsOf 0 (s :: T)).length - 1) 1 0
                (runsOf 0 (s :: T)) = some (runsOf 0 segs₃) := by
              rw [length_runsOf]
              rw [List.nil_append, List.flatten_singleton] at hcoalesce
              show coalesceLoop key arr₂ T.length 1 0 (⟨0, s.length⟩ :: runsOf (0 + s.length) T) = _
              rw [Nat.zero_add]
              exact hcoalesce
            show ∃ out, (coalesceLoop key arr₂ _ 1 0 (runsOf 0 (s :: T))).bind _ = _ ∧ _
            rw [hcoalesce']
            have htiled' : Tiled key arr arr₂ segs₃ := ⟨hsplit, hpieces, htiled.same⟩
            show ∃ out, (if (runsOf 0 segs₃).length ≤ 1 then _ else _) = _ ∧ _
            by_cases hone' : (runsOf 0 segs₃).length ≤ 1
            · rw [if_pos hone']
              rw [length_runsOf] at hone'
              exact ⟨arr₂, rfl, htiled'.sorted_of_one hone', htiled'.same⟩
            · rw [if_neg hone']
              rw [length_runsOf] at hone'
              cases alloc 0 with
              | true =>
                  exact mergeReff_spec resistance gt htiled' (by omega) (hcount.trans hroom)
                    (Nat.le_succ _)
              | false =>
                  obtain ⟨out, hout, hsort⟩ := binaryInsertionSort_spec key arr₂
                  exact ⟨out, hout, hsort.sorted, htiled'.same.trans hsort.stable⟩

/-- The result is a permutation, ordered by key, equal keys in their original
order. -/
theorem subSpectralMerge_sorts (resistance : κ → κ → ρ) (gt : ρ → ρ → Bool) (key : α → κ)
    (alloc : Nat → Bool) (arr : List α) :
    ∃ out, subSpectralMerge resistance gt key (arr.length + 1) alloc arr = some out
      ∧ out.Perm arr ∧ (out.Pairwise fun x y => key x ≤ key y)
      ∧ ∀ k, (out.filter fun x => key x = k) = arr.filter fun x => key x = k := by
  obtain ⟨out, hout, hsort⟩ :=
    subSpectralMerge_stable resistance gt key (arr.length + 1) alloc arr (Nat.lt_succ_self _)
  exact ⟨out, hout, hsort.perm, hsort.sorted, hsort.stable⟩

end

end Montauk.Sort
