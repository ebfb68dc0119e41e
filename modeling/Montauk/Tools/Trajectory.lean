import Mathlib.Algebra.BigOperators.Group.Finset.Basic
import Mathlib.Algebra.Order.Field.Basic
import Montauk.Machine.Permutations
import Montauk.Stats.Cliff
import Montauk.Stats.PermTest

/-!
# The rank scan over versions

`run_trajectory` looks for a boundary in a window of versions. At each boundary
a cell gives a rank statistic, and the scan keeps the sum of the squares over
the cells and the largest absolute value (`trajScan`). How large the peaks of
both are is compared with their peaks under other orders of the versions: all of
them, stepped through by `std::next_permutation`, in a window of at most seven
versions. The window is split where a peak is, and both parts are looked at.

Permuting the data is permuting the order in which they are scanned
(`trajScan_assign`), so the windows that differ in the assignment of the data
are compared with the same peaks. The one with the smallest peak of those with a
p-value up to `alpha` is compared with all of them (`exists_card_le_reach`), so
they are at most that share of the assignments (`trajectory_valid`); the
tolerance of the comparison only helps.

The squares vanish with the absolute values, so there is either no peak or two,
both at a boundary; both parts of a split have versions, and the segmentation
ends.
-/

namespace Montauk.Tools

open Montauk.Enumerate Montauk.Permutations Montauk.Stats

/-! ## Members that are as large -/

/-- Some member of a finite family reaches as many as the family has, if each
reaches what is as large as it is. -/
theorem exists_card_le_reach {ι κ : Type*} [Fintype ι] [LinearOrder κ] (M : ι → κ) (reach : ι → ι → Prop)
    [∀ i, DecidablePred (reach i)] (h : ∀ i j, M i ≤ M j → reach i j) {S : Finset ι} (hne : S.Nonempty) :
    ∃ i ∈ S, S.card ≤ (Finset.univ.filter (reach i)).card := by
  -- the smallest one reaches them all
  obtain ⟨i, hi, hmin⟩ := Finset.exists_min_image S M hne
  refine ⟨i, hi, Finset.card_le_card fun j hj => ?_⟩
  exact Finset.mem_filter.mpr ⟨Finset.mem_univ j, h i j (hmin j hj)⟩

/-! ## The ranks of a window -/

section

variable {K : Type} [Field K] [LinearOrder K]

/-- What `TrajPrep` holds of a cell: by version the number of runs and the sum
of their midranks, then the ties and the number of runs of the window. -/
structure CellPrep (K : Type) where
  cnt : List Nat
  ranksum : List K
  tie3 : K
  total : Nat

/-- The runs of the window with their versions, counted from its start. -/
def windowVals (runs : List UInt8 → List K) (vers : List (List UInt8)) (lo hi : Nat) : List (K × Nat) :=
  ((vers.drop lo).take (hi - lo)).zipIdx.flatMap fun v => (runs v.1).map fun x => (x, v.2)

/-- The loop over the runs in order of their values, `i` of them done: equal
values share the middle of their ranks. -/
def prepLoop : List (K × Nat) → Nat → CellPrep K → CellPrep K
  | [], _, c => c
  | v :: vals, i, c =>
      let same := v :: vals.takeWhile fun w => w.1 = v.1
      let j := i + same.length
      let mid : K := ((i + 1 : Nat) + (j : Nat)) / 2
      let t : K := same.length
      let c := if 1 < t then { c with tie3 := c.tie3 + (t * t * t - t) } else c
      let c := same.foldl (fun c w =>
        { c with cnt := c.cnt.modify w.2 (· + 1), ranksum := c.ranksum.modify w.2 (· + mid) }) c
      prepLoop (vals.dropWhile fun w => w.1 = v.1) j c
termination_by vals => vals.length
decreasing_by
  exact Nat.lt_succ_of_le (List.dropWhile_sublist _).length_le

def trajPrepCell (orderVals : List (K × Nat) → List (K × Nat)) (runs : List UInt8 → List K)
    (vers : List (List UInt8)) (lo hi : Nat) : CellPrep K :=
  let vals := windowVals runs vers lo hi
  let c : CellPrep K :=
    { cnt := List.replicate (hi - lo) 0, ranksum := List.replicate (hi - lo) 0, tie3 := 0, total := vals.length }
  if vals.length = 0 then c else prepLoop (orderVals vals) 0 c

/-! ## The scan -/

variable (rankT : K → Nat → Nat → K → K)

/-- The statistic of a cell behind each version of `p`, with the sums `R` and
`m` so far. -/
def scanCell (c : CellPrep K) : List Nat → K → Nat → List K
  | [], _, _ => []
  | i :: p, R, m =>
      let R := R + c.ranksum.getD i 0
      let m := m + c.cnt.getD i 0
      rankT R m c.total c.tie3 :: scanCell c p R m

/-- The aggregates of both kinds, by boundary. -/
abbrev Aggregates (K : Type) := List K × List K

/-- A cell's turn in `traj_scan`. -/
def scanStep (p : List Nat) (a : Aggregates K) (c : CellPrep K) : Aggregates K :=
  if c.total < 2 then a
  else
    let ts := scanCell rankT c p.dropLast 0 0
    (a.1.zipWith (fun x t => x + t * t) ts, a.2.zipWith (fun x t => if x < |t| then |t| else x) ts)

/-- `traj_scan`: at place `k - 1` is the boundary `k`, in front of it the first
`k` versions of `p`. -/
def trajScan (tp : List (CellPrep K)) (p : List Nat) : Aggregates K :=
  tp.foldl (scanStep rankT p) (List.replicate (p.length - 1) 0, List.replicate (p.length - 1) 0)

def peak (xs : List K) : K := xs.foldl (fun m x => if m < x then x else m) 0

/-- The maximum with its boundary, from the boundary `k` on; no boundary is
zero. -/
def strictMax : List K → Nat → K × Nat → K × Nat
  | [], _, m => m
  | x :: xs, k, m => strictMax xs (k + 1) (if m.1 < x then (x, k) else m)

def peakSlack : K := 1 / 10 ^ 12

/-- The counters of `tally`. -/
structure PeakTally where
  cntD : Nat
  cntS : Nat
  ntot : Nat

/-- `tally`, with the peaks that are looked for. -/
def tallyPeaks (tp : List (CellPrep K)) (Md Ms : K) (c : PeakTally) (p : List Nat) : PeakTally :=
  let a := trajScan rankT tp p
  { cntD := if Md - peakSlack ≤ peak a.1 then c.cntD + 1 else c.cntD
    cntS := if Ms - peakSlack ≤ peak a.2 then c.cntS + 1 else c.cntS
    ntot := c.ntot + 1 }

/-! ## The p-values of a window -/

section
variable {σ : Type} (next : σ → UInt64 × σ) (fuel : Nat)

/-- The shuffle of the versions, from the place `k` down. -/
def shuffleOrder : Nat → List Nat → σ → Option (List Nat × σ)
  | 0, p, g => some (p, g)
  | 1, p, g => some (p, g)
  | k + 2, p, g => do
      let (j, g) ← below next fuel (UInt64.ofNat (k + 2)) g
      let x ← p[k + 1]?
      let y ← p[j.toNat]?
      shuffleOrder (k + 1) ((p.set (k + 1) y).set j.toNat x) g

/-- The loop over the shuffles, `B` of them left. -/
def sampleLoop (tp : List (CellPrep K)) (Md Ms : K) : Nat → PeakTally → List Nat → σ → Option PeakTally
  | 0, c, _, _ => some c
  | B + 1, c, p, g => do
      let (p, g) ← shuffleOrder next fuel p.length p g
      sampleLoop tp Md Ms B (tallyPeaks rankT tp Md Ms c p) p g

/-- What the scan of a window finds. -/
structure WindowScan (K : Type) where
  Kd : Nat
  Ks : Nat
  pd : K
  psp : K

/-- `K` -/
def WindowScan.boundary (s : WindowScan K) : Nat := if s.pd ≤ s.psp then s.Kd else s.Ks

/-- The scan of a window of `W` versions: no boundary, or the peaks and their
p-values. The generator starts at `g`; `trajPerms` is the number of shuffles. -/
def scanWindow (trajPerms : Int) (tp : List (CellPrep K)) (W : Nat) (g : σ) : Option (Option (WindowScan K)) :=
  let a := trajScan rankT tp (List.range W)
  let d := strictMax a.1 1 (0, 0)
  let s := strictMax a.2 1 (0, 0)
  if d.2 = 0 ∧ s.2 = 0 then some none
  else if W ≤ 7 then do
    let c ← doWhile nextPermutation (tallyPeaks rankT tp d.1 s.1) W.factorial (List.range W) ⟨0, 0, 0⟩
    return some { Kd := d.2, Ks := s.2, pd := c.cntD / c.ntot, psp := c.cntS / c.ntot }
  else do
    let B := if 0 < trajPerms then trajPerms.toNat else 999
    let c ← sampleLoop rankT next fuel tp d.1 s.1 B ⟨0, 0, 0⟩ (List.range W) g
    return some { Kd := d.2, Ks := s.2, pd := (c.cntD + 1 : Nat) / (B + 1 : K), psp := (c.cntS + 1 : Nat) / (B + 1 : K) }

end

/-! ## The segmentation -/

/-- The options of `run_trajectory` that decide about a split. -/
structure TrajOptions (K : Type) where
  trajPerms : Int
  trajAlpha : K
  trajMinEffect : ℚ

section
variable (orderVals : List (K × Nat) → List (K × Nat)) (sortAsc : List K → List K) (sortEffects : List ℚ → List ℚ)

/-- A cell spans the boundary `k`: some of its runs are on either side. -/
def CellPrep.spans (c : CellPrep K) (k : Nat) : Bool :=
  2 ≤ c.total && (c.cnt.take k).sum ≠ 0 && (c.cnt.take k).sum < c.total

/-- The effect of a cell at a boundary: `|delta|` of the runs before it and
behind it. -/
def cellEffect (runs : List UInt8 → List K) (vers : List (List UInt8)) (lo hi k : Nat) : Option ℚ :=
  let window := (vers.drop lo).take (hi - lo)
  (cliffsDelta sortAsc ((window.take k).flatMap runs) ((window.drop k).flatMap runs)).map abs

/-- The effects of the cells that span the boundary. -/
def boundaryEffects (cells : List (List UInt8 → List K)) (vers : List (List UInt8)) (lo hi k : Nat) :
    Option (List ℚ) :=
  (cells.filter fun runs => (trajPrepCell orderVals runs vers lo hi).spans k).mapM fun runs =>
    cellEffect sortAsc runs vers lo hi k

variable {σ : Type} (next : σ → UInt64 × σ) (fuel : Nat) (seed : Nat → Nat → σ) (opt : TrajOptions K)
  (cells : List (List UInt8 → List K)) (vers : List (List UInt8))

/-- Where a window is split, if it is. `seed` is what the generator starts with
in a window. -/
def splitAt (lo hi : Nat) : Option (Option Nat) := do
  let tp := cells.map fun runs => trajPrepCell orderVals runs vers lo hi
  match ← scanWindow rankT next fuel opt.trajPerms tp (hi - lo) (seed lo hi) with
  | none => return none
  | some s =>
      if opt.trajAlpha < min s.pd s.psp * 2 then return none
      let effects ← boundaryEffects orderVals sortAsc cells vers lo hi s.boundary
      if effects = [] then return none
      if percentile sortEffects effects 50 < opt.trajMinEffect then return none
      return some s.boundary

/-- A split that is reported: the window and the versions in front of the
boundary. -/
structure Jump where
  lo : Nat
  hi : Nat
  k : Nat

/-- The loop over the stack of windows, with at most `turns` windows; what it
returns is empty where a window's scan is. -/
def segmentLoop : Nat → List (Nat × Nat) → List Jump → Option (Option (List Jump))
  | _, [], out => some (some out)
  | 0, _ :: _, _ => none
  | turns + 1, (lo, hi) :: stack, out =>
      if hi - lo < 2 then segmentLoop turns stack out
      else
        match splitAt rankT orderVals sortAsc sortEffects next fuel seed opt cells vers lo hi with
        | none => some none
        | some none => segmentLoop turns stack out
        | some (some k) => segmentLoop turns ((lo + k, hi) :: (lo, lo + k) :: stack) (out ++ [⟨lo, hi, k⟩])

/-- The segmentation of a family in `run_trajectory`. -/
def segmentation (turns : Nat) : Option (Option (List Jump)) :=
  if vers.length < 2 then some (some [])
  else segmentLoop rankT orderVals sortAsc sortEffects next fuel seed opt cells vers turns [(0, vers.length)] []

end

end

/-! ## Peaks -/

section

variable {K : Type} [LinearOrder K]

theorem strictMax_fst (xs : List K) (k : Nat) (m : K × Nat) :
    (strictMax xs k m).1 = xs.foldl (fun m x => if m < x then x else m) m.1 := by
  induction xs generalizing k m with
  | nil => rfl
  | cons x xs ih =>
      rw [strictMax, ih, List.foldl_cons]
      split <;> rfl

/-- The boundary of the maximum is the one it starts with, which nothing
exceeds, or one of the list. -/
theorem strictMax_snd (xs : List K) (k : Nat) (m : K × Nat) :
    (strictMax xs k m).2 = m.2 ∧ (∀ x ∈ xs, x ≤ m.1)
      ∨ k ≤ (strictMax xs k m).2 ∧ (strictMax xs k m).2 < k + xs.length ∧ ∃ x ∈ xs, m.1 < x := by
  induction xs generalizing k m with
  | nil => exact .inl ⟨rfl, nofun⟩
  | cons x xs ih =>
      rw [strictMax, List.length_cons]
      by_cases h : m.1 < x
      · rw [if_pos h]
        refine .inr ?_
        rcases ih (k + 1) (x, k) with ⟨hk, -⟩ | ⟨hlow, hhigh, -⟩
        · rw [hk]
          exact ⟨le_rfl, by omega, x, List.mem_cons_self, h⟩
        · exact ⟨by omega, by omega, x, List.mem_cons_self, h⟩
      · rw [if_neg h]
        rcases ih (k + 1) m with ⟨hk, hall⟩ | ⟨hlow, hhigh, y, hy, hlt⟩
        · exact .inl ⟨hk, List.forall_mem_cons.mpr ⟨not_lt.mp h, hall⟩⟩
        · exact .inr ⟨by omega, by omega, y, List.mem_cons_of_mem _ hy, hlt⟩

variable [Field K]

theorem peak_eq (xs : List K) (k : Nat) : (strictMax xs k (0, 0)).1 = peak xs := strictMax_fst xs k (0, 0)

/-- Without a boundary nothing is above zero; a boundary is one of the list. -/
theorem strictMax_zero_iff (xs : List K) : (strictMax xs 1 (0, 0)).2 = 0 ↔ ∀ x ∈ xs, x ≤ 0 := by
  rcases strictMax_snd xs 1 (0, 0) with ⟨hk, hall⟩ | ⟨hlow, -, x, hx, hlt⟩
  · exact ⟨fun _ => hall, fun _ => hk⟩
  · exact ⟨fun h => absurd h (by omega), fun h => absurd hlt (not_lt.mpr (h x hx))⟩

theorem strictMax_lt (xs : List K) : (strictMax xs 1 (0, 0)).2 < 1 + xs.length := by
  rcases strictMax_snd xs 1 (0, 0) with ⟨hk, -⟩ | ⟨-, hhigh, -⟩
  · rw [hk]
    omega
  · exact hhigh

end

/-! ## The two aggregates -/

section

variable {K : Type} [Field K] [LinearOrder K] (rankT : K → Nat → Nat → K → K)

omit [LinearOrder K] in
theorem length_scanCell (c : CellPrep K) (p : List Nat) (R : K) (m : Nat) :
    (scanCell rankT c p R m).length = p.length := by
  induction p generalizing R m with
  | nil => rfl
  | cons i p ih => rw [scanCell, List.length_cons, ih, List.length_cons]

theorem length_scanStep {p : List Nat} {a : Aggregates K} (h1 : a.1.length = p.length - 1)
    (h2 : a.2.length = p.length - 1) (c : CellPrep K) :
    (scanStep rankT p a c).1.length = p.length - 1 ∧ (scanStep rankT p a c).2.length = p.length - 1 := by
  rw [scanStep]
  split
  · exact ⟨h1, h2⟩
  · simp only [List.length_zipWith, length_scanCell, List.length_dropLast, h1, h2, Nat.min_self, and_self]

theorem length_trajScan (tp : List (CellPrep K)) (p : List Nat) :
    (trajScan rankT tp p).1.length = p.length - 1 ∧ (trajScan rankT tp p).2.length = p.length - 1 := by
  have hfold : ∀ (tp : List (CellPrep K)) (a : Aggregates K), a.1.length = p.length - 1 → a.2.length = p.length - 1 →
      (tp.foldl (scanStep rankT p) a).1.length = p.length - 1 ∧ (tp.foldl (scanStep rankT p) a).2.length = p.length - 1 := by
    intro tp
    induction tp with
    | nil => exact fun a h1 h2 => ⟨h1, h2⟩
    | cons c tp ih =>
        intro a h1 h2
        obtain ⟨h1, h2⟩ := length_scanStep rankT h1 h2 c
        exact ih _ h1 h2
  exact hfold tp _ List.length_replicate List.length_replicate

variable [IsStrictOrderedRing K]

/-- A sum of squares and a largest absolute value, of the same numbers: neither
is negative, and they vanish together. -/
def Twins (d s : K) : Prop := 0 ≤ d ∧ 0 ≤ s ∧ (d = 0 ↔ s = 0)

theorem Twins.add {d s : K} (h : Twins d s) (t : K) : Twins (d + t * t) (if s < |t| then |t| else s) := by
  obtain ⟨hd, hs, hzero⟩ := h
  have hsquare : 0 ≤ t * t := mul_self_nonneg t
  refine ⟨add_nonneg hd hsquare, ?_, ?_⟩
  · split
    · exact abs_nonneg t
    · exact hs
  · constructor
    · intro hsum
      have hd0 : d = 0 := le_antisymm (by linarith) hd
      have ht0 : t = 0 := mul_self_eq_zero.mp (le_antisymm (by linarith) hsquare)
      rw [ht0, abs_zero, hzero.mp hd0, if_neg (lt_irrefl 0)]
    · intro hmax
      have hboth : s = 0 ∧ |t| = 0 := by
        split at hmax
        · rename_i hlt
          exact ⟨le_antisymm (hmax ▸ hlt.le) hs, hmax⟩
        · rename_i hle
          exact ⟨hmax, le_antisymm (hmax ▸ not_lt.mp hle) (abs_nonneg t)⟩
      rw [hzero.mpr hboth.1, abs_eq_zero.mp hboth.2, mul_zero, add_zero]

/-- The aggregates are twins at every boundary. -/
def Paired (a : Aggregates K) : Prop := List.Forall₂ Twins a.1 a.2

theorem Paired.step {a : Aggregates K} (h : Paired a) (p : List Nat) (c : CellPrep K) :
    Paired (scanStep rankT p a c) := by
  have hzip : ∀ {d s : List K}, List.Forall₂ Twins d s → ∀ ts : List K,
      List.Forall₂ Twins (d.zipWith (fun x t => x + t * t) ts)
        (s.zipWith (fun x t => if x < |t| then |t| else x) ts) := by
    intro d s hds
    induction hds with
    | nil => exact fun ts => .nil
    | cons hx _ ih =>
        intro ts
        cases ts with
        | nil => exact .nil
        | cons t ts => exact .cons (hx.add t) (ih ts)
  rw [scanStep]
  split
  · exact h
  · exact hzip h _

theorem paired_trajScan (tp : List (CellPrep K)) (p : List Nat) : Paired (trajScan rankT tp p) := by
  have hfold : ∀ (tp : List (CellPrep K)) (a : Aggregates K), Paired a → Paired (tp.foldl (scanStep rankT p) a) := by
    intro tp
    induction tp with
    | nil => exact fun a h => h
    | cons c tp ih => exact fun a h => ih _ (h.step rankT p c)
  refine hfold tp _ ?_
  induction p.length - 1 with
  | zero => exact .nil
  | succ n ih => exact .cons ⟨le_rfl, le_rfl, Iff.rfl⟩ ih

omit [IsStrictOrderedRing K] in
theorem forall_le_zero_iff {d s : List K} (h : List.Forall₂ Twins d s) : (∀ x ∈ d, x ≤ 0) ↔ ∀ x ∈ s, x ≤ 0 := by
  induction h with
  | nil => exact Iff.rfl
  | @cons x y d s hx _ ih =>
      obtain ⟨hnd, hns, hzero⟩ := hx
      rw [List.forall_mem_cons, List.forall_mem_cons]
      refine and_congr ?_ ih
      exact ⟨fun h => (hzero.mp (le_antisymm h hnd)).le, fun h => (hzero.mpr (le_antisymm h hns)).le⟩

/-- The dense aggregate has a peak exactly if the sparse one has. -/
theorem peaks_together (tp : List (CellPrep K)) (p : List Nat) :
    (strictMax (trajScan rankT tp p).1 1 (0, 0)).2 = 0 ↔ (strictMax (trajScan rankT tp p).2 1 (0, 0)).2 = 0 := by
  rw [strictMax_zero_iff, strictMax_zero_iff]
  exact forall_le_zero_iff (paired_trajScan rankT tp p)

end

/-! ## Assigning the data -/

section

variable {K : Type} [Field K] (rankT : K → Nat → Nat → K → K) {W : Nat}

/-- The data of the cell with those of version `σ i` at version `i`. -/
def CellPrep.assign (σ : Equiv.Perm (Fin W)) (c : CellPrep K) : CellPrep K :=
  { c with cnt := List.ofFn fun i => c.cnt.getD (σ i) 0, ranksum := List.ofFn fun i => c.ranksum.getD (σ i) 0 }

theorem scanCell_assign (c : CellPrep K) (σ : Equiv.Perm (Fin W)) (p : List (Fin W)) (R : K) (m : Nat) :
    scanCell rankT (c.assign σ) (p.map Fin.val) R m = scanCell rankT c (p.map fun i => (σ i : Nat)) R m := by
  induction p generalizing R m with
  | nil => rfl
  | cons i p ih =>
      have hcnt : (c.assign σ).cnt.getD i 0 = c.cnt.getD (σ i) 0 := by
        rw [CellPrep.assign, List.getD_eq_getElem _ _ (by rw [List.length_ofFn]; exact i.isLt), List.getElem_ofFn]
      have hsum : (c.assign σ).ranksum.getD i 0 = c.ranksum.getD (σ i) 0 := by
        rw [CellPrep.assign, List.getD_eq_getElem _ _ (by rw [List.length_ofFn]; exact i.isLt), List.getElem_ofFn]
      rw [List.map_cons, List.map_cons, scanCell, scanCell, hcnt, hsum, ih]
      rfl

variable [LinearOrder K]

/-- **Permuted data in the order `τ`** are the data in the permuted order. -/
theorem trajScan_assign (tp : List (CellPrep K)) (σ τ : Equiv.Perm (Fin W)) :
    trajScan rankT (tp.map (CellPrep.assign σ)) (valuesOf τ) = trajScan rankT tp (valuesOf (σ * τ)) := by
  have hlast : ∀ f : Fin W → Nat, (List.ofFn fun i => f (τ i)).dropLast = (List.ofFn τ).dropLast.map f := by
    intro f
    rw [List.map_dropLast, List.map_ofFn]
    rfl
  have hstep : ∀ a c, scanStep rankT (valuesOf τ) a (CellPrep.assign σ c)
      = scanStep rankT (valuesOf (σ * τ)) a c := by
    intro a c
    have hcell : scanCell rankT (CellPrep.assign σ c) (valuesOf τ).dropLast 0 0
        = scanCell rankT c (valuesOf (σ * τ)).dropLast 0 0 := by
      rw [valuesOf, hlast Fin.val, scanCell_assign, ← hlast fun i => (σ i : Nat)]
      rfl
    rw [scanStep, scanStep, hcell]
    rfl
  rw [trajScan, trajScan, List.foldl_map, length_valuesOf, length_valuesOf]
  simp only [hstep]

/-! ## The enumeration -/

theorem foldl_tallyPeaks (tp : List (CellPrep K)) (Md Ms : K) (L : List (List Nat)) (c : PeakTally) :
    L.foldl (tallyPeaks rankT tp Md Ms) c =
      { cntD := c.cntD + L.countP fun p => Md - peakSlack ≤ peak (trajScan rankT tp p).1
        cntS := c.cntS + L.countP fun p => Ms - peakSlack ≤ peak (trajScan rankT tp p).2
        ntot := c.ntot + L.length } := by
  induction L generalizing c with
  | nil => rfl
  | cons p L ih =>
      rw [List.foldl_cons, ih, tallyPeaks]
      simp only [List.countP_cons, List.length_cons, decide_eq_true_eq, PeakTally.mk.injEq]
      refine ⟨?_, ?_, by omega⟩
      · split <;> omega
      · split <;> omega

/-- The orders whose peak is as large as `M`, for one of the aggregates. -/
def reaching (agg : List Nat → List K) (W : Nat) (M : K) : Nat :=
  (Finset.univ.filter fun τ : Equiv.Perm (Fin W) => M - peakSlack ≤ peak (agg (valuesOf τ))).card

theorem doWhile_tallyPeaks (tp : List (CellPrep K)) (Md Ms : K) (W : Nat) :
    doWhile nextPermutation (tallyPeaks rankT tp Md Ms) W.factorial (List.range W) ⟨0, 0, 0⟩ = some
      { cntD := reaching (fun p => (trajScan rankT tp p).1) W Md
        cntS := reaching (fun p => (trajScan rankT tp p).2) W Ms
        ntot := W.factorial } := by
  obtain ⟨rest, hrest⟩ := exists_orders_cons (n := W) (l := List.range W) List.length_range
  have hlen := length_orders (n := W) (l := List.range W) List.length_range
  have hwalk := walks_orders (n := W) (l := List.range W) List.pairwise_lt_range List.length_range
  rw [hrest] at hwalk
  rw [hrest, List.length_cons] at hlen
  rw [doWhile_of_walks hwalk (by omega), ← hrest, foldl_tallyPeaks, countP_orders, countP_orders,
    length_orders List.length_range, Nat.zero_add, Nat.zero_add, Nat.zero_add]
  rfl

section

variable {σ : Type} (next : σ → UInt64 × σ) (fuel : Nat) (trajPerms : Int)

theorem scanWindow_enumerated (tp : List (CellPrep K)) {W : Nat} (hW : W ≤ 7) (g : σ) :
    scanWindow rankT next fuel trajPerms tp W g =
      let a := trajScan rankT tp (List.range W)
      some (if (strictMax a.1 1 (0, 0)).2 = 0 ∧ (strictMax a.2 1 (0, 0)).2 = 0 then none
        else some
          { Kd := (strictMax a.1 1 (0, 0)).2
            Ks := (strictMax a.2 1 (0, 0)).2
            pd := reaching (fun p => (trajScan rankT tp p).1) W (peak a.1) / (W.factorial : Nat)
            psp := reaching (fun p => (trajScan rankT tp p).2) W (peak a.2) / (W.factorial : Nat) }) := by
  rw [scanWindow]
  dsimp only
  rw [doWhile_tallyPeaks, if_pos hW, peak_eq, peak_eq]
  split <;> rfl

end

/-- Data that are assigned by `σ` are compared with the same peaks. -/
theorem reaching_assign {agg agg' : List Nat → List K} {σ : Equiv.Perm (Fin W)}
    (h : ∀ τ : Equiv.Perm (Fin W), agg' (valuesOf τ) = agg (valuesOf (σ * τ))) (M : K) :
    reaching agg' W M = reaching agg W M := by
  rw [reaching, reaching]
  refine Finset.card_equiv (Equiv.mulLeft σ) fun τ => ?_
  rw [Finset.mem_filter, Finset.mem_filter, h]
  simp

end

/-! ## Validity -/

section

variable {K : Type} [Field K] [LinearOrder K] [IsStrictOrderedRing K] {W : Nat}

/-- Assignments whose share of orders as large is at most `alpha` are at most
that share of all; a negative `alpha` is met by none. -/
theorem ncard_le_of_reaching (agg : List Nat → List K) {alpha : K} {S : Set (Equiv.Perm (Fin W))}
    (h : ∀ σ ∈ S, (reaching agg W (peak (agg (valuesOf σ))) : K) / (W.factorial : Nat) ≤ alpha) :
    (S.ncard : K) ≤ max alpha 0 * (W.factorial : Nat) := by
  classical
  have hfact : (0 : K) < (W.factorial : Nat) := Nat.cast_pos.mpr W.factorial_pos
  rw [Set.ncard_eq_toFinset_card']
  rcases S.toFinset.eq_empty_or_nonempty with he | hne
  · rw [he, Finset.card_empty, Nat.cast_zero]
    exact mul_nonneg (le_max_right _ _) hfact.le
  · have hslack : (0 : K) ≤ peakSlack := by
      rw [peakSlack]
      positivity
    obtain ⟨σ, hσ, hle⟩ := exists_card_le_reach (fun σ => peak (agg (valuesOf σ)))
      (fun σ τ => peak (agg (valuesOf σ)) - peakSlack ≤ peak (agg (valuesOf τ)))
      (fun σ τ hle => (sub_le_self _ hslack).trans hle) hne
    calc (S.toFinset.card : K) ≤ reaching agg W (peak (agg (valuesOf σ))) := Nat.cast_le.mpr hle
      _ ≤ alpha * (W.factorial : Nat) := (div_le_iff₀ hfact).mp (h σ (Set.mem_toFinset.mp hσ))
      _ ≤ max alpha 0 * (W.factorial : Nat) := mul_le_mul_of_nonneg_right (le_max_left _ _) hfact.le

variable (rankT : K → Nat → Nat → K → K) {σ : Type} (next : σ → UInt64 × σ) (fuel : Nat) (trajPerms : Int)

omit [IsStrictOrderedRing K] in
/-- The p-values of the data that `π` assigns: the shares of orders as large. -/
theorem scanWindow_assign (tp : List (CellPrep K)) (hW : W ≤ 7) (g : σ) {π : Equiv.Perm (Fin W)} {r : WindowScan K}
    (h : scanWindow rankT next fuel trajPerms (tp.map (CellPrep.assign π)) W g = some (some r)) :
    r.pd = (reaching (fun p => (trajScan rankT tp p).1) W (peak (trajScan rankT tp (valuesOf π)).1) : K)
        / (W.factorial : Nat)
      ∧ r.psp = (reaching (fun p => (trajScan rankT tp p).2) W (peak (trajScan rankT tp (valuesOf π)).2) : K)
        / (W.factorial : Nat) := by
  have hident : trajScan rankT (tp.map (CellPrep.assign π)) (List.range W) = trajScan rankT tp (valuesOf π) := by
    rw [← valuesOf_one, trajScan_assign, mul_one]
  have hassign : ∀ τ, trajScan rankT (tp.map (CellPrep.assign π)) (valuesOf τ) = trajScan rankT tp (valuesOf (π * τ)) :=
    trajScan_assign rankT tp π
  have hdense : ∀ M, reaching (fun p => (trajScan rankT (tp.map (CellPrep.assign π)) p).1) W M
      = reaching (fun p => (trajScan rankT tp p).1) W M := reaching_assign fun τ => congrArg Prod.fst (hassign τ)
  have hsparse : ∀ M, reaching (fun p => (trajScan rankT (tp.map (CellPrep.assign π)) p).2) W M
      = reaching (fun p => (trajScan rankT tp p).2) W M := reaching_assign fun τ => congrArg Prod.snd (hassign τ)
  rw [scanWindow_enumerated rankT next fuel trajPerms _ hW] at h
  dsimp only at h
  split at h
  · exact absurd (Option.some.inj h) nofun
  · rw [hident, hdense, hsparse] at h
    cases h
    exact ⟨rfl, rfl⟩

/-! ## The boundary of a split -/

variable {rankT next fuel trajPerms}

/-- A peak is at a boundary, whichever way the p-values are had. -/
theorem scanWindow_boundary {tp : List (CellPrep K)} {g : σ} {r : WindowScan K}
    (h : scanWindow rankT next fuel trajPerms tp W g = some (some r)) :
    1 ≤ r.boundary ∧ r.boundary ≤ W - 1 := by
  have htogether := peaks_together rankT tp (List.range W)
  obtain ⟨hlen1, hlen2⟩ := length_trajScan rankT tp (List.range W)
  rw [List.length_range] at hlen1 hlen2
  have hd := strictMax_lt (trajScan rankT tp (List.range W)).1
  have hs := strictMax_lt (trajScan rankT tp (List.range W)).2
  have hr : ¬ ((strictMax (trajScan rankT tp (List.range W)).1 1 (0, 0)).2 = 0
      ∧ (strictMax (trajScan rankT tp (List.range W)).2 1 (0, 0)).2 = 0)
      ∧ r.Kd = (strictMax (trajScan rankT tp (List.range W)).1 1 (0, 0)).2
      ∧ r.Ks = (strictMax (trajScan rankT tp (List.range W)).2 1 (0, 0)).2 := by
    rw [scanWindow] at h
    dsimp only at h
    split at h
    · exact absurd (Option.some.inj h) nofun
    · rename_i hpeak
      refine ⟨hpeak, ?_⟩
      split at h
      · obtain ⟨c, -, h⟩ := Option.bind_eq_some_iff.mp h
        cases h
        exact ⟨rfl, rfl⟩
      · obtain ⟨c, -, h⟩ := Option.bind_eq_some_iff.mp h
        cases h
        exact ⟨rfl, rfl⟩
  obtain ⟨hpeak, hKd, hKs⟩ := hr
  rw [WindowScan.boundary, hKd, hKs]
  split <;> omega

section

variable {orderVals : List (K × Nat) → List (K × Nat)} {sortAsc : List K → List K} {sortEffects : List ℚ → List ℚ}
  {seed : Nat → Nat → σ} {opt : TrajOptions K} {cells : List (List UInt8 → List K)} {vers : List (List UInt8)}

theorem splitAt_boundary {lo hi k : Nat}
    (h : splitAt rankT orderVals sortAsc sortEffects next fuel seed opt cells vers lo hi = some (some k)) :
    1 ≤ k ∧ k ≤ hi - lo - 1 := by
  rw [splitAt] at h
  obtain ⟨scan, hscan, h⟩ := Option.bind_eq_some_iff.mp h
  cases scan with
  | none => exact absurd (Option.some.inj h) nofun
  | some s =>
      have hk : s.boundary = k := by
        dsimp only at h
        split at h
        · exact absurd (Option.some.inj h) nofun
        · obtain ⟨effects, -, h⟩ := Option.bind_eq_some_iff.mp h
          split at h
          · exact absurd (Option.some.inj h) nofun
          · split at h
            · exact absurd (Option.some.inj h) nofun
            · exact Option.some.inj (Option.some.inj h)
      rw [← hk]
      exact scanWindow_boundary hscan

def Windows (stack : List (Nat × Nat)) : Prop := ∀ w ∈ stack, w.1 < w.2

/-- How many windows come from the stack at most. -/
def windowsLeft (stack : List (Nat × Nat)) : Nat := (stack.map fun w => 2 * (w.2 - w.1) - 1).sum

/-- Both parts of a split are windows, and have one turn less than the whole. -/
theorem windows_split {lo hi k : Nat} {stack : List (Nat × Nat)} (h : Windows ((lo, hi) :: stack)) (hk : 1 ≤ k)
    (hk' : k ≤ hi - lo - 1) :
    Windows ((lo + k, hi) :: (lo, lo + k) :: stack)
      ∧ windowsLeft ((lo + k, hi) :: (lo, lo + k) :: stack) < windowsLeft ((lo, hi) :: stack) := by
  obtain ⟨hw, hstack⟩ := List.forall_mem_cons.mp h
  refine ⟨List.forall_mem_cons.mpr ⟨?_, List.forall_mem_cons.mpr ⟨?_, hstack⟩⟩, ?_⟩
  · show lo + k < hi
    omega
  · show lo < lo + k
    omega
  · simp only [windowsLeft, List.map_cons, List.sum_cons] at hw ⊢
    omega

/-- **The loop ends**, and what it splits it splits inside. -/
theorem segmentLoop_ends {turns : Nat} {stack : List (Nat × Nat)} {out : List Jump} (h : Windows stack)
    (hturns : windowsLeft stack ≤ turns) (hout : ∀ j ∈ out, j.lo < j.lo + j.k ∧ j.lo + j.k < j.hi) :
    ∃ r, segmentLoop rankT orderVals sortAsc sortEffects next fuel seed opt cells vers turns stack out = some r
      ∧ ∀ jumps, r = some jumps → ∀ j ∈ jumps, j.lo < j.lo + j.k ∧ j.lo + j.k < j.hi := by
  induction turns generalizing stack out with
  | zero =>
      cases stack with
      | nil => exact ⟨_, by rw [segmentLoop], fun jumps hj => Option.some.inj hj ▸ hout⟩
      | cons w stack =>
          have hw := h w List.mem_cons_self
          simp only [windowsLeft, List.map_cons, List.sum_cons] at hturns
          omega
  | succ turns ih =>
      cases stack with
      | nil => exact ⟨_, by rw [segmentLoop], fun jumps hj => Option.some.inj hj ▸ hout⟩
      | cons w stack =>
          obtain ⟨lo, hi⟩ := w
          obtain ⟨hw, hstack⟩ := List.forall_mem_cons.mp h
          have hpop : windowsLeft stack ≤ turns := by
            simp only [windowsLeft, List.map_cons, List.sum_cons] at hw hturns ⊢
            omega
          rw [segmentLoop]
          split
          · exact ih hstack hpop hout
          · split
            · exact ⟨none, rfl, nofun⟩
            · exact ih hstack hpop hout
            · rename_i k hk
              obtain ⟨hk1, hk2⟩ := splitAt_boundary hk
              obtain ⟨hwindows, hless⟩ := windows_split h hk1 hk2
              refine ih hwindows (by omega) fun j hj => ?_
              rcases List.mem_append.mp hj with hj | hj
              · exact hout j hj
              · rw [List.mem_singleton.mp hj]
                show lo < lo + k ∧ lo + k < hi
                omega

end

end

/-- **The p-values of the scan are valid and the segmentation ends.** In a
window of two to seven versions every assignment of the data has a scan, and at
most the share `alpha` of the assignments gets a p-value up to `alpha`, for
either aggregate. A window of any size is split at a boundary inside it, and a
number of turns linear in that of the versions is enough. -/
theorem trajectory_valid {K : Type} [Field K] [LinearOrder K] [IsStrictOrderedRing K]
    (rankT : K → Nat → Nat → K → K) {σ : Type} (next : σ → UInt64 × σ) (fuel : Nat) :
    (∀ (W : Nat), 2 ≤ W → W ≤ 7 → ∀ (trajPerms : Int) (tp : List (CellPrep K)) (g : σ),
      (∀ π : Equiv.Perm (Fin W),
        ∃ r, scanWindow rankT next fuel trajPerms (tp.map (CellPrep.assign π)) W g = some r)
      ∧ ∀ alpha : K,
        ({π : Equiv.Perm (Fin W) | ∃ r, scanWindow rankT next fuel trajPerms (tp.map (CellPrep.assign π)) W g
            = some (some r) ∧ r.pd ≤ alpha}.ncard : K) ≤ max alpha 0 * (W.factorial : Nat)
        ∧ ({π : Equiv.Perm (Fin W) | ∃ r, scanWindow rankT next fuel trajPerms (tp.map (CellPrep.assign π)) W g
            = some (some r) ∧ r.psp ≤ alpha}.ncard : K) ≤ max alpha 0 * (W.factorial : Nat))
    ∧ ∀ (orderVals : List (K × Nat) → List (K × Nat)) (sortAsc : List K → List K) (sortEffects : List ℚ → List ℚ)
        (seed : Nat → Nat → σ) (opt : TrajOptions K) (cells : List (List UInt8 → List K)) (vers : List (List UInt8)),
      (∀ lo hi k, splitAt rankT orderVals sortAsc sortEffects next fuel seed opt cells vers lo hi = some (some k) →
        1 ≤ k ∧ k ≤ hi - lo - 1)
      ∧ ∀ turns, 2 * vers.length ≤ turns →
        ∃ r, segmentation rankT orderVals sortAsc sortEffects next fuel seed opt cells vers turns = some r
          ∧ ∀ jumps, r = some jumps → ∀ j ∈ jumps, j.lo < j.lo + j.k ∧ j.lo + j.k < j.hi := by
  constructor
  · intro W _ hW trajPerms tp g
    refine ⟨fun π => ⟨_, scanWindow_enumerated rankT next fuel trajPerms _ hW g⟩, fun alpha => ⟨?_, ?_⟩⟩
    · refine ncard_le_of_reaching (fun p => (trajScan rankT tp p).1) ?_
      rintro π ⟨r, hr, hle⟩
      rwa [← (scanWindow_assign rankT next fuel trajPerms tp hW g hr).1]
    · refine ncard_le_of_reaching (fun p => (trajScan rankT tp p).2) ?_
      rintro π ⟨r, hr, hle⟩
      rwa [← (scanWindow_assign rankT next fuel trajPerms tp hW g hr).2]
  · intro orderVals sortAsc sortEffects seed opt cells vers
    refine ⟨fun lo hi k => splitAt_boundary, fun turns hturns => ?_⟩
    rw [segmentation]
    split
    · exact ⟨_, rfl, fun jumps hj => Option.some.inj hj ▸ nofun⟩
    · refine segmentLoop_ends ?_ ?_ nofun
      · intro w hw
        rw [List.mem_singleton.mp hw]
        show 0 < vers.length
        omega
      · show 2 * (vers.length - 0) - 1 + 0 ≤ turns
        omega

/-- Two versions with a run each. -/
theorem trajectory_valid_two :
    ({π : Equiv.Perm (Fin 2) | ∃ r : WindowScan ℚ,
        scanWindow (fun (R : ℚ) (m n : Nat) (_ : ℚ) => R - m * (n + 1) / 2) (fun g : Nat => ((0 : UInt64), g + 1)) 0 0
          ([⟨[1, 1], [1, 2], 0, 2⟩].map (CellPrep.assign π)) 2 0 = some (some r) ∧ r.pd ≤ 1 / 2}.ncard : ℚ)
      ≤ max (1 / 2) 0 * (Nat.factorial 2 : Nat) :=
  (((trajectory_valid (fun (R : ℚ) (m n : Nat) (_ : ℚ) => R - m * (n + 1) / 2)
    (fun g : Nat => ((0 : UInt64), g + 1)) 0).1 2 le_rfl (by decide) 0 [⟨[1, 1], [1, 2], 0, 2⟩] 0).2 (1 / 2)).1

end Montauk.Tools
