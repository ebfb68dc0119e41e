import Montauk.Sort.Insertion
import Montauk.Sort.Patience
import Montauk.Sort.Words

/-!
# The classifier

`sub_classify_core` looks at an array and says which kind of disorder it has.
One pass over the neighbours (`count_runs`) settles the sorted and the
reversed arrays; then come a rotation test, a sampled inversion ratio, a
sampled number of distinct values and a search for a phase boundary, in this
order, and the patience pass where its result is reported.

The floating-point operations are a parameter. Whatever they are, the classifier
returns, and says sorted of the arrays without a descent and reversed of those
with nothing but descents (`classifyRuns_spec`).
-/

namespace Montauk.Sort

/-- `sub_disorder_t`. -/
inductive Disorder where
  | sorted
  | reversed
  | nearlySorted
  | fewUnique
  | random
  | phased
deriving DecidableEq

/-- The floating-point operations of the classifier, and its oscillator. -/
structure Floats where
  F : Type
  zero : F
  one : F
  /-- `(float)a / (float)b` -/
  ratio : Nat → Nat → F
  /-- `2.0 * rot * (n - rot) / (n * (n - 1))` -/
  rotated : Nat → Nat → F
  /-- `r < 0.05f` -/
  small : F → Bool
  /-- `(size_t)(r * (float)n)` -/
  scale : F → Nat → Nat
  /-- `(size_t)((1.0f - r) * (float)n)` -/
  scaleRest : F → Nat → Nat
  /-- the gap of a descent, as `int64_t` -/
  descentGap : Int → Int → Int
  Osc : Type
  /-- `sub_osc_t osc = {0}` -/
  parked : Osc
  /-- `sub_osc_detect` -/
  oscDetect : Osc → F → Osc × Bool

def noFloats : Floats where
  F := Unit
  zero := ()
  one := ()
  ratio _ _ := ()
  rotated _ _ := ()
  small _ := false
  scale _ _ := 0
  scaleRest _ _ := 0
  descentGap x y := x - y
  Osc := Unit
  parked := ()
  oscDetect _ _ := ((), false)

variable {α : Type} [SubInt α]

/-! ## One pass over the neighbours -/

/-- `sub_run_info_t` and the locals of `count_runs`. -/
structure RunInfo where
  runCount : Nat
  monoCount : Nat
  maxRunLen : Nat
  maxDescentGap : Int
  isSorted : Bool
  isReversed : Bool
  currentRun : Nat
  currentAscending : Bool
  prevDescending : Bool

/-- One step of `count_runs`: `x` behind `prev`. -/
def RunInfo.step (flt : Floats) (prev x : Int) (info : RunInfo) : RunInfo :=
  let ascending := decide (prev ≤ x)
  let descending := decide (x < prev)
  let gap := flt.descentGap prev x
  let same := ascending == info.currentAscending
  {
    runCount := if ascending && info.prevDescending then info.runCount + 1 else info.runCount
    monoCount := if same then info.monoCount else info.monoCount + 1
    maxRunLen := if !same && decide (info.maxRunLen < info.currentRun) then info.currentRun
      else info.maxRunLen
    maxDescentGap := if descending && decide (info.maxDescentGap < gap) then gap
      else info.maxDescentGap
    isSorted := info.isSorted && !descending
    isReversed := info.isReversed && !ascending
    currentRun := if same then info.currentRun + 1 else 1
    currentAscending := ascending
    prevDescending := descending }

def RunInfo.scan (flt : Floats) : Int → List Int → RunInfo → RunInfo
  | _, [], info => info
  | prev, x :: rest, info => scan flt x rest (info.step flt prev x)

def countRuns (flt : Floats) (arr : List Int) : RunInfo :=
  match arr with
  | x :: y :: rest =>
      let info := RunInfo.scan flt x (y :: rest) ⟨1, 1, 1, 0, true, true, 1, decide (x ≤ y), false⟩
      { info with
        maxRunLen := if info.maxRunLen < info.currentRun then info.currentRun else info.maxRunLen }
  | _ => ⟨1, 1, 1, 0, true, false, 1, true, false⟩

/-! ## Samples -/

def subLcgNext (s : UInt64) : UInt64 := s * 6364136223846793005 + 1442695040888963407

/-- `sub_lcg_index`, with the state behind it. -/
def subLcgIndex (s : UInt64) (n : Nat) : Nat × UInt64 :=
  ((subLcgNext s >>> 33).toNat % n, subLcgNext s)

/-- The pairs looked at: `k` more. -/
def sampleLoop (arr : List Int) (n : Nat) : Nat → UInt64 → Nat → Option Nat
  | 0, _, inversions => some inversions
  | k + 1, rng, inversions => do
      let (i, rng) := subLcgIndex rng n
      let (j, rng) := subLcgIndex rng n
      if i = j then sampleLoop arr n k rng inversions
      else do
        let x ← load arr (min i j)
        let y ← load arr (max i j)
        sampleLoop arr n k rng (if y < x then inversions + 1 else inversions)

def sampleInversionRatio (flt : Floats) (arr : List Int) : Option flt.F :=
  let n := arr.length
  if n < 2 then some flt.zero
  else do
    let sampleCount := if n * (n - 1) / 2 < 128 then n * (n - 1) / 2 else 128
    let inversions ← sampleLoop arr n sampleCount (0x5DEECE66D ^^^ UInt64.ofNat n) 0
    some (flt.ratio inversions sampleCount)

/-- The values that differ from the one before. -/
def countChanges : List Int → Nat
  | x :: y :: rest => (if y ≠ x then 1 else 0) + countChanges (y :: rest)
  | _ => 0

def estimateDistinct (arr : List Int) : Option Nat := do
  let n := arr.length
  let sampleN := if n < 64 then n else 64
  let stride := if n / sampleN < 1 then 1 else n / sampleN
  let sample ← (List.range sampleN).mapM fun i => load arr (i * stride)
  let sample ← insertionSort (fun x key => decide (key < x)) sample
  let estimate := (1 + countChanges sample) * n / sampleN
  some (if n < estimate then n else estimate)

def countDescents : List Int → Nat
  | x :: y :: rest => (if y < x then 1 else 0) + countDescents (y :: rest)
  | _ => 0

/-- The windows from `i` on. -/
def windowLoop (flt : Floats) (arr : List Int) : Nat → Nat → flt.Osc → Option Nat
  | 0, _, _ => none
  | fuel + 1, i, osc =>
      if i < arr.length then do
        let last := if i + 32 < arr.length then i + 32 else arr.length
        let window ← loadN arr i (last - i)
        if last - i < 2 then windowLoop flt arr fuel (i + 16) osc
        else
          let (osc, fired) := flt.oscDetect osc (flt.ratio (countDescents window) (last - i - 1))
          if fired then some i else windowLoop flt arr fuel (i + 16) osc
      else some 0

def detectPhaseBoundary (flt : Floats) (arr : List Int) : Option Nat :=
  if arr.length < 64 then some 0 else windowLoop flt arr (arr.length + 1) 32 flt.parked

/-- The descents from position `i` on, and the last of them; a second one ends
the search. -/
def rotationLoop : Int → List Int → Nat → Nat → Nat → Option (Nat × Nat)
  | _, [], _, count, pos => some (count, pos)
  | prev, x :: rest, i, count, pos =>
      if x < prev then
        if 1 < count + 1 then none else rotationLoop x rest (i + 1) (count + 1) i
      else rotationLoop x rest (i + 1) count pos

def detectRotation (arr : List Int) : Option Nat :=
  if arr.length < 3 then some 0
  else do
    let first ← load arr 0
    let last ← load arr (arr.length - 1)
    match rotationLoop first (arr.drop 1) 1 0 0 with
    | none => some 0
    | some (count, pos) => some (if count = 1 ∧ last ≤ first then pos else 0)

/-! ## The profile -/

/-- `sub_profile_t`. -/
structure Profile (F : Type) where
  n : Nat
  runCount : Nat
  monoCount : Nat
  maxRunLen : Nat
  maxDescentGap : Int
  lisLength : Nat
  ldsLength : Nat
  distinctEstimate : Nat
  inversionRatio : F
  phaseBoundary : Nat
  rotationPoint : Nat
  disorder : Disorder

/-- `{ .n = n, .disorder = SUB_RANDOM }`. -/
def Profile.start (flt : Floats) (n : Nat) : Profile flt.F :=
  ⟨n, 0, 0, 0, 0, 0, 0, 0, flt.zero, 0, 0, .random⟩

variable {F : Type}

/-- `patience_sort_with_tableau`, into the profile. -/
def Profile.tableau (p : Profile F) (arr : List Int) : Option (Profile F) := do
  let t ← patienceSortWithTableau arr
  some { p with lisLength := t.lisLength, ldsLength := t.ldsLength }

def patienceThreshold : Nat := 256

def tableauMaxN : Nat := 10000

def prefixSorted (arr : List Int) (boundary : Nat) : Bool := countDescents (arr.take boundary) == 0

def classifyPhases (flt : Floats) (arr : List Int) (p : Profile flt.F) : Option (Profile flt.F) := do
  let boundary ← detectPhaseBoundary flt arr
  let kept := decide (0 < boundary) && prefixSorted arr boundary
  let lis := flt.scaleRest p.inversionRatio arr.length
  let p := { p with
    phaseBoundary := if kept then boundary else 0
    disorder := if kept then .phased else p.disorder
    lisLength := if lis < 1 then 1 else lis }
  some { p with
    disorder := if p.disorder = .random ∧ arr.length * 3 / 4 < p.lisLength then .nearlySorted
      else p.disorder }

def classifySampled (flt : Floats) (arr : List Int) (p : Profile flt.F) : Option (Profile flt.F) := do
  let n := arr.length
  let ratio ← sampleInversionRatio flt arr
  let distinct ← estimateDistinct arr
  let p := { p with inversionRatio := ratio, distinctEstimate := distinct }
  if flt.small ratio ∧ p.runCount ≤ n / 16 then
    let p := { p with disorder := .nearlySorted }
    if p.runCount ≤ 16 ∧ patienceThreshold ≤ n then p.tableau arr
    else some { p with lisLength := n - flt.scale ratio n }
  else if distinct ≤ n / 4 then
    let p := { p with disorder := .fewUnique }
    if patienceThreshold ≤ n then p.tableau arr else some p
  else classifyPhases flt arr p

def classifyUnsorted (flt : Floats) (arr : List Int) (p : Profile flt.F) : Option (Profile flt.F) := do
  let n := arr.length
  let rot ← (if p.runCount = 2 then detectRotation arr else some 0)
  if 0 < rot then do
    let distinct ← estimateDistinct arr
    some { p with
      disorder := .nearlySorted
      lisLength := n - 1
      ldsLength := 2
      rotationPoint := rot
      distinctEstimate := distinct
      inversionRatio := flt.rotated rot n }
  else if ¬ n / 4 < p.runCount ∧ p.runCount < n / 8 ∧ n / 2 < p.maxRunLen then do
    let distinct ← estimateDistinct arr
    let ratio ← sampleInversionRatio flt arr
    let p := { p with
      disorder := .nearlySorted
      lisLength := p.maxRunLen
      distinctEstimate := distinct
      inversionRatio := ratio }
    if patienceThreshold ≤ n ∧ n ≤ tableauMaxN then p.tableau arr else some p
  else classifySampled flt arr { p with disorder := .random }

/-- From `count_runs` on. -/
def classifyRuns (flt : Floats) (arr : List Int) : Option (Profile flt.F) := do
  let n := arr.length
  let runs := countRuns flt arr
  let p := { Profile.start flt n with
    runCount := runs.runCount
    monoCount := runs.monoCount
    maxRunLen := runs.maxRunLen
    maxDescentGap := runs.maxDescentGap }
  if runs.isSorted then do
    let first ← load arr 0
    let last ← load arr (n - 1)
    let allEqual := !decide (first < last)
    let distinct ← (if allEqual then some 1 else estimateDistinct arr)
    some { p with
      disorder := .sorted
      lisLength := n
      ldsLength := if allEqual then n else 1
      distinctEstimate := distinct }
  else if runs.isReversed then do
    let distinct ← estimateDistinct arr
    some { p with
      disorder := .reversed
      lisLength := 1
      ldsLength := n
      distinctEstimate := distinct
      inversionRatio := flt.one }
  else classifyUnsorted flt arr p

/-- `sub_classify_core`; `gate` is the block for one element type. -/
def subClassifyCore (flt : Floats) (gate : List α → Option (Option (Profile flt.F))) (arr : List α) :
    Option (Profile flt.F) :=
  if arr.length ≤ 1 then
    some { Profile.start flt arr.length with
      disorder := .sorted
      lisLength := arr.length
      ldsLength := arr.length
      runCount := 1
      monoCount := 1
      maxRunLen := arr.length }
  else do
    let done ← gate arr
    match done with
    | some p => some p
    | none => classifyRuns flt (arr.map SubInt.value)

/-- `sub_classify_internal` of a type without such a block. -/
def subClassifyInternal (flt : Floats) (arr : List α) : Option (Profile flt.F) :=
  subClassifyCore flt (fun _ => some none) arr

/-! ## The classifier returns -/

variable {flt : Floats} {arr : List Int} {p : Profile flt.F}

theorem sampleLoop_returns (h : 0 < arr.length) (k : Nat) (rng : UInt64) (inversions : Nat) :
    ∃ out, sampleLoop arr arr.length k rng inversions = some out := by
  induction k generalizing rng inversions with
  | zero => exact ⟨inversions, rfl⟩
  | succ k ih =>
      have hi : (subLcgIndex rng arr.length).1 < arr.length := Nat.mod_lt _ h
      have hj : (subLcgIndex (subLcgIndex rng arr.length).2 arr.length).1 < arr.length := Nat.mod_lt _ h
      rw [sampleLoop]
      dsimp only
      split
      · exact ih _ _
      · rw [load_of_lt (by omega), Option.bind_eq_bind, Option.bind_some, load_of_lt (by omega),
          Option.bind_some]
        exact ih _ _

theorem sampleInversionRatio_returns (flt : Floats) (arr : List Int) :
    ∃ ratio, sampleInversionRatio flt arr = some ratio := by
  rw [sampleInversionRatio]
  dsimp only
  split
  · exact ⟨_, rfl⟩
  · rename_i hlen
    obtain ⟨inversions, hloop⟩ := sampleLoop_returns (by omega : 0 < arr.length)
      (if arr.length * (arr.length - 1) / 2 < 128 then arr.length * (arr.length - 1) / 2 else 128)
      (0x5DEECE66D ^^^ UInt64.ofNat arr.length) 0
    rw [hloop]
    exact ⟨_, rfl⟩

theorem mapM_returns {β γ : Type} {f : β → Option γ} {xs : List β} (h : ∀ x ∈ xs, ∃ y, f x = some y) :
    ∃ ys, xs.mapM f = some ys := by
  induction xs with
  | nil => exact ⟨[], rfl⟩
  | cons x xs ih =>
      obtain ⟨y, hy⟩ := h x List.mem_cons_self
      obtain ⟨ys, hys⟩ := ih fun z hz => h z (List.mem_cons_of_mem x hz)
      refine ⟨y :: ys, ?_⟩
      rw [List.mapM_cons, hy, hys]
      rfl

theorem estimateDistinct_returns (h : 0 < arr.length) :
    ∃ distinct, estimateDistinct arr = some distinct := by
  rw [estimateDistinct]
  dsimp only
  obtain ⟨sample, hsample⟩ : ∃ sample, (List.range (if arr.length < 64 then arr.length else 64)).mapM
      (fun i => load arr (i * (if arr.length / (if arr.length < 64 then arr.length else 64) < 1 then 1
        else arr.length / (if arr.length < 64 then arr.length else 64)))) = some sample := by
    refine mapM_returns fun i hi => ⟨_, load_of_lt ?_⟩
    rw [List.mem_range] at hi
    by_cases hlen : arr.length < 64
    · rw [if_pos hlen] at hi ⊢
      rw [Nat.div_self h, if_neg (Nat.lt_irrefl 1), Nat.mul_one]
      exact hi
    · rw [if_neg hlen] at hi ⊢
      have hstride : ¬ arr.length / 64 < 1 := by omega
      rw [if_neg hstride]
      have hle : i * (arr.length / 64) ≤ 63 * (arr.length / 64) := Nat.mul_le_mul_right _ (by omega)
      omega
  obtain ⟨sorted, hsort, -⟩ := insertionSort_perm (fun x key : Int => decide (key < x)) sample
  rw [hsample, Option.bind_eq_bind, Option.bind_some, hsort, Option.bind_some]
  exact ⟨_, rfl⟩

theorem windowLoop_returns (fuel i : Nat) (osc : flt.Osc) (hfuel : 0 < fuel)
    (hroom : arr.length + 1 ≤ fuel + i) :
    ∃ boundary, windowLoop flt arr fuel i osc = some boundary ∧
      (boundary = 0 ∨ i ≤ boundary ∧ boundary < arr.length) := by
  induction fuel generalizing i osc with
  | zero => exact absurd hfuel (Nat.lt_irrefl 0)
  | succ fuel ih =>
      rw [windowLoop]
      by_cases hi : i < arr.length
      · rw [if_pos hi]
        have hlast : i + ((if i + 32 < arr.length then i + 32 else arr.length) - i) ≤ arr.length := by
          split <;> omega
        dsimp only
        have hnext : ∀ osc', ∃ boundary, windowLoop flt arr fuel (i + 16) osc' = some boundary ∧
            (boundary = 0 ∨ i ≤ boundary ∧ boundary < arr.length) := by
          intro osc'
          obtain ⟨boundary, hrun, hin⟩ := ih (i + 16) osc' (by omega) (by omega)
          exact ⟨boundary, hrun, hin.imp_right fun h => ⟨by omega, h.2⟩⟩
        generalize (if i + 32 < arr.length then i + 32 else arr.length) = last at hlast ⊢
        rw [loadN, if_pos hlast, Option.bind_eq_bind, Option.bind_some]
        split
        · exact hnext osc
        · split
          · exact ⟨i, rfl, Or.inr ⟨Nat.le_refl i, hi⟩⟩
          · exact hnext _
      · rw [if_neg hi]
        exact ⟨0, rfl, Or.inl rfl⟩

theorem detectPhaseBoundary_returns (flt : Floats) (arr : List Int) :
    ∃ boundary, detectPhaseBoundary flt arr = some boundary ∧ (0 < boundary → boundary < arr.length) := by
  rw [detectPhaseBoundary]
  split
  · exact ⟨0, rfl, fun h => absurd h (Nat.lt_irrefl 0)⟩
  · obtain ⟨boundary, hrun, hin⟩ := @windowLoop_returns flt arr (arr.length + 1) 32 flt.parked
      (Nat.succ_pos _) (by omega)
    exact ⟨boundary, hrun, fun hpos => (hin.resolve_left (by omega)).2⟩

/-- Two ascending parts, the second one not above the first. -/
structure Rotated (arr : List Int) (rot : Nat) : Prop where
  split : ∃ xs ys, arr = xs ++ ys ∧ xs.length = rot ∧ ys ≠ [] ∧ (xs.Pairwise fun x y => x ≤ y) ∧
    (ys.Pairwise fun x y => x ≤ y) ∧ ∀ x ∈ xs, ∀ y ∈ ys, y ≤ x

/-- What the search has seen: no descent, or one at `pos`. -/
def OneDescent (count pos : Nat) (seen : List Int) : Prop :=
  count = 0 ∧ (seen.Pairwise fun x y => x ≤ y) ∨
  count = 1 ∧ ∃ xs ys, seen = xs ++ ys ∧ xs.length = pos ∧ ys ≠ [] ∧ (xs.Pairwise fun x y => x ≤ y) ∧
    ys.Pairwise fun x y => x ≤ y

theorem pairwise_concat {xs : List Int} {prev x : Int} (h : (xs ++ [prev]).Pairwise fun x y => x ≤ y)
    (hle : prev ≤ x) : (xs ++ [prev] ++ [x]).Pairwise fun x y => x ≤ y := by
  refine List.pairwise_append.mpr ⟨h, List.pairwise_singleton _ x, fun y hy z hz => ?_⟩
  rw [List.mem_singleton.mp hz]
  rcases List.mem_append.mp hy with hy | hy
  · exact Int.le_trans ((List.pairwise_append.mp h).2.2 y hy prev (List.mem_singleton.mpr rfl)) hle
  · rwa [List.mem_singleton.mp hy]

theorem rotationLoop_spec (seen : List Int) (prev : Int) (rest : List Int) (count pos : Nat)
    (h : OneDescent count pos (seen ++ [prev])) {count' pos' : Nat}
    (hrun : rotationLoop prev rest (seen.length + 1) count pos = some (count', pos')) :
    OneDescent count' pos' (seen ++ prev :: rest) := by
  induction rest generalizing seen prev count pos with
  | nil =>
      obtain ⟨rfl, rfl⟩ := Prod.mk.inj (Option.some.inj hrun)
      exact h
  | cons x rest ih =>
      have hsplit : seen ++ prev :: x :: rest = seen ++ [prev] ++ x :: rest := by
        rw [List.append_assoc]
        rfl
      have hlen : seen.length + 1 + 1 = (seen ++ [prev]).length + 1 := by
        rw [List.length_append, List.length_singleton]
      rw [rotationLoop, hlen] at hrun
      rw [hsplit]
      by_cases hlt : x < prev
      · rw [if_pos hlt] at hrun
        rcases h with ⟨rfl, hasc⟩ | ⟨rfl, -⟩
        · rw [if_neg (Nat.lt_irrefl 1)] at hrun
          refine ih (seen ++ [prev]) x 1 (seen.length + 1) (Or.inr ⟨rfl, seen ++ [prev], [x], rfl, ?_, ?_,
            hasc, List.pairwise_singleton _ x⟩) hrun
          · rw [List.length_append, List.length_singleton]
          · exact List.cons_ne_nil x []
        · exact absurd hrun nofun
      · rw [if_neg hlt] at hrun
        refine ih (seen ++ [prev]) x count pos ?_ hrun
        rcases h with ⟨rfl, hasc⟩ | ⟨rfl, xs, ys, heq, hpos, hne, hx, hy⟩
        · exact Or.inl ⟨rfl, pairwise_concat hasc (Int.not_lt.mp hlt)⟩
        · obtain ⟨zs, z, rfl⟩ := exists_concat (List.length_pos_of_ne_nil hne)
          rw [← List.append_assoc] at heq
          obtain ⟨-, hz⟩ := List.append_inj' heq rfl
          obtain rfl := (List.cons.inj hz).1
          refine Or.inr ⟨rfl, xs, zs ++ [prev] ++ [x], ?_, hpos, by simp, hx,
            pairwise_concat hy (Int.not_lt.mp hlt)⟩
          rw [heq, List.append_assoc, List.append_assoc, List.append_assoc]

/-- With the last element not above the first, no element of the second part is
above one of the first part. -/
theorem ends_le {xs ys : List Int} {x₀ y₀ : Int} (hx : (x₀ :: xs).Pairwise fun x y => x ≤ y)
    (hy : (ys ++ [y₀]).Pairwise fun x y => x ≤ y) (hends : y₀ ≤ x₀) :
    ∀ x ∈ x₀ :: xs, ∀ y ∈ ys ++ [y₀], y ≤ x := by
  intro x hxs y hys
  have hlow : x₀ ≤ x := @Ascending.head_le Int Int _ (fun z => z) x₀ xs hx x hxs
  have hhigh : y ≤ y₀ := @Ascending.le_last Int Int _ (fun z => z) y₀ ys hy y hys
  omega

theorem detectRotation_returns (arr : List Int) :
    ∃ rot, detectRotation arr = some rot ∧ (0 < rot → Rotated arr rot) := by
  rw [detectRotation]
  split
  · exact ⟨0, rfl, fun h => absurd h (Nat.lt_irrefl 0)⟩
  · rename_i hlen
    obtain ⟨first, rest, rfl⟩ := List.exists_cons_of_length_pos (by omega : 0 < arr.length)
    obtain ⟨last, hlast⟩ : ∃ last, load (first :: rest) ((first :: rest).length - 1) = some last :=
      ⟨_, load_of_lt (by omega)⟩
    rw [load, List.getElem?_cons_zero, Option.bind_eq_bind, Option.bind_some, hlast, Option.bind_some,
      List.drop_succ_cons, List.drop_zero]
    split
    · exact ⟨0, rfl, fun h => absurd h (Nat.lt_irrefl 0)⟩
    · rename_i count pos hloop
      refine ⟨_, rfl, fun hpos => ?_⟩
      by_cases hone : count = 1 ∧ last ≤ first
      · rw [if_pos hone] at hpos ⊢
        rcases rotationLoop_spec [] first rest 0 0 (Or.inl ⟨rfl, List.pairwise_singleton _ first⟩) hloop with
          ⟨hzero, -⟩ | ⟨-, xs, ys, heq, hxs, hne, hx, hy⟩
        · omega
        · rw [List.nil_append] at heq
          refine ⟨xs, ys, heq, hxs, hne, hx, hy, ?_⟩
          obtain ⟨x₀, xs, rfl⟩ := List.exists_cons_of_length_pos (by omega : 0 < xs.length)
          obtain ⟨ys, y₀, rfl⟩ := exists_concat (List.length_pos_of_ne_nil hne)
          have hend : load (first :: rest) ((first :: rest).length - 1) = some y₀ := by
            rw [heq, ← List.append_assoc]
            exact load_append (by rw [List.length_append, List.length_singleton, Nat.add_sub_cancel])
          obtain rfl := (List.cons.inj heq).1
          obtain rfl := Option.some.inj (hlast.symm.trans hend)
          exact ends_le hx hy hone.2
      · rw [if_neg hone] at hpos
        exact absurd hpos (Nat.lt_irrefl 0)

theorem Profile.tableau_eq (p : Profile F) (arr : List Int) : ∃ lis lds,
    p.tableau arr = some { p with lisLength := lis, ldsLength := lds } := by
  obtain ⟨t, ht⟩ := patienceSortWithTableau_returns arr
  refine ⟨t.lisLength, t.ldsLength, ?_⟩
  rw [tableau, ht]
  rfl

/-- Behind the pass over the neighbours no verdict is sorted or reversed, and
what the verdict says of the array is so. -/
structure Profile.Unsorted (arr : List Int) (p : Profile F) : Prop where
  not_sorted : p.disorder ≠ .sorted
  not_reversed : p.disorder ≠ .reversed
  rotated : 0 < p.rotationPoint → Rotated arr p.rotationPoint
  phased : p.disorder = .phased → 0 < p.phaseBoundary ∧ p.phaseBoundary < arr.length

theorem Profile.Unsorted.of_eq {p : Profile F} (d : Disorder) (h : p.disorder = d)
    (hd : d ≠ .sorted ∧ d ≠ .reversed ∧ d ≠ .phased) (hrot : p.rotationPoint = 0) : p.Unsorted arr := by
  subst h
  exact ⟨hd.1, hd.2.1, fun hpos => absurd hpos (by omega), fun hphased => absurd hphased hd.2.2⟩

theorem Profile.tableau_unsorted {p : Profile F} (h : p.Unsorted arr) :
    ∃ p', p.tableau arr = some p' ∧ p'.Unsorted arr := by
  obtain ⟨lis, lds, hrun⟩ := p.tableau_eq arr
  exact ⟨_, hrun, h.not_sorted, h.not_reversed, h.rotated, h.phased⟩

theorem classifyPhases_returns (h : p.disorder = .random) (hrot : p.rotationPoint = 0) :
    ∃ p', classifyPhases flt arr p = some p' ∧ p'.Unsorted arr := by
  obtain ⟨boundary, hboundary, hin⟩ := detectPhaseBoundary_returns flt arr
  rw [classifyPhases, hboundary, Option.bind_eq_bind, Option.bind_some, h]
  refine ⟨_, rfl, ?_⟩
  cases hkept : decide (0 < boundary) && prefixSorted arr boundary with
  | true =>
      have hpos : 0 < boundary := of_decide_eq_true (Bool.and_eq_true_iff.mp hkept).1
      exact ⟨nofun, nofun, fun hrot' => absurd hrot' (by rw [hrot]; exact Nat.lt_irrefl 0),
        fun _ => ⟨hpos, hin hpos⟩⟩
  | false =>
      by_cases hnear : arr.length * 3 / 4
          < (if flt.scaleRest p.inversionRatio arr.length < 1 then 1
            else flt.scaleRest p.inversionRatio arr.length)
      · exact .of_eq .nearlySorted (if_pos ⟨rfl, hnear⟩) (by decide) hrot
      · exact .of_eq .random (if_neg fun h => hnear h.2) (by decide) hrot

theorem classifySampled_returns (hlen : 0 < arr.length) (h : p.disorder = .random)
    (hrot : p.rotationPoint = 0) : ∃ p', classifySampled flt arr p = some p' ∧ p'.Unsorted arr := by
  obtain ⟨ratio, hratio⟩ := sampleInversionRatio_returns flt arr
  obtain ⟨distinct, hdistinct⟩ := estimateDistinct_returns hlen
  rw [classifySampled, hratio, hdistinct]
  simp only [Option.bind_eq_bind, Option.bind_some]
  split
  · split
    · exact Profile.tableau_unsorted (.of_eq .nearlySorted rfl (by decide) hrot)
    · exact ⟨_, rfl, .of_eq .nearlySorted rfl (by decide) hrot⟩
  · split
    · split
      · exact Profile.tableau_unsorted (.of_eq .fewUnique rfl (by decide) hrot)
      · exact ⟨_, rfl, .of_eq .fewUnique rfl (by decide) hrot⟩
    · exact classifyPhases_returns h hrot

theorem classifyUnsorted_returns (hlen : 0 < arr.length) (hrot : p.rotationPoint = 0) :
    ∃ p', classifyUnsorted flt arr p = some p' ∧ p'.Unsorted arr := by
  obtain ⟨distinct, hdistinct⟩ := estimateDistinct_returns hlen
  obtain ⟨ratio, hratio⟩ := sampleInversionRatio_returns flt arr
  obtain ⟨rot, hdetect, hrotated⟩ : ∃ rot, (if p.runCount = 2 then detectRotation arr else some 0) = some rot
      ∧ (0 < rot → Rotated arr rot) := by
    split
    · exact detectRotation_returns arr
    · exact ⟨0, rfl, fun h => absurd h (Nat.lt_irrefl 0)⟩
  rw [classifyUnsorted]
  simp only [hdetect, hdistinct, hratio, Option.bind_eq_bind, Option.bind_some]
  split
  · exact ⟨_, rfl, nofun, nofun, hrotated, nofun⟩
  · split
    · split
      · exact Profile.tableau_unsorted (.of_eq .nearlySorted rfl (by decide) hrot)
      · exact ⟨_, rfl, .of_eq .nearlySorted rfl (by decide) hrot⟩
    · exact classifySampled_returns hlen rfl hrot

/-! ## What the pass over the neighbours says -/

theorem RunInfo.isSorted_scan (flt : Floats) (x : Int) (rest : List Int) (info : RunInfo) :
    (RunInfo.scan flt x rest info).isSorted = true
      ↔ info.isSorted = true ∧ (x :: rest).IsChain fun x y => x ≤ y := by
  induction rest generalizing x info with
  | nil => exact ⟨fun h => ⟨h, .singleton x⟩, fun h => h.1⟩
  | cons y rest ih =>
      have hstep : (info.step flt x y).isSorted = (info.isSorted && !decide (y < x)) := rfl
      rw [scan, ih, hstep, List.isChain_cons_cons, Bool.and_eq_true, Bool.not_eq_true',
        decide_eq_false_iff_not, Int.not_lt, and_assoc]

theorem RunInfo.isReversed_scan (flt : Floats) (x : Int) (rest : List Int) (info : RunInfo) :
    (RunInfo.scan flt x rest info).isReversed = true
      ↔ info.isReversed = true ∧ (x :: rest).IsChain fun x y => y < x := by
  induction rest generalizing x info with
  | nil => exact ⟨fun h => ⟨h, .singleton x⟩, fun h => h.1⟩
  | cons y rest ih =>
      have hstep : (info.step flt x y).isReversed = (info.isReversed && !decide (x ≤ y)) := rfl
      rw [scan, ih, hstep, List.isChain_cons_cons, Bool.and_eq_true, Bool.not_eq_true',
        decide_eq_false_iff_not, Int.not_le, and_assoc]

theorem exists_two {β : Type} {xs : List β} (h : 2 ≤ xs.length) : ∃ x y rest, xs = x :: y :: rest := by
  match xs, h with
  | [], h => exact absurd h (Nat.not_le_of_lt (Nat.succ_pos 1))
  | [_], h => exact absurd h (Nat.not_le_of_lt (Nat.lt_succ_self 1))
  | x :: y :: rest, _ => exact ⟨x, y, rest, rfl⟩

theorem countRuns_isSorted (flt : Floats) (h : 2 ≤ arr.length) :
    (countRuns flt arr).isSorted = true ↔ arr.IsChain fun x y => x ≤ y := by
  obtain ⟨x, y, rest, rfl⟩ := exists_two h
  exact (RunInfo.isSorted_scan flt x (y :: rest) _).trans (and_iff_right rfl)

theorem countRuns_isReversed (flt : Floats) (h : 2 ≤ arr.length) :
    (countRuns flt arr).isReversed = true ↔ arr.IsChain fun x y => y < x := by
  obtain ⟨x, y, rest, rfl⟩ := exists_two h
  exact (RunInfo.isReversed_scan flt x (y :: rest) _).trans (and_iff_right rfl)

/-- The verdict is sorted of the arrays without a descent, and reversed of those
with nothing else. -/
theorem classifyRuns_spec (flt : Floats) (h : 2 ≤ arr.length) :
    ∃ p, classifyRuns flt arr = some p ∧
      (p.disorder = .sorted ↔ arr.IsChain fun x y => x ≤ y) ∧
      (p.disorder = .reversed ↔ arr.IsChain fun x y => y < x) ∧
      (p.disorder ≠ .sorted → p.disorder ≠ .reversed → p.Unsorted arr) := by
  have hsorted := countRuns_isSorted flt h
  have hreversed := countRuns_isReversed flt h
  -- no array is both
  have hboth : (arr.IsChain fun x y => x ≤ y) → ¬ arr.IsChain fun x y => y < x := by
    obtain ⟨x, y, rest, rfl⟩ := exists_two h
    rw [List.isChain_cons_cons, List.isChain_cons_cons]
    rintro ⟨hle, -⟩ ⟨hlt, -⟩
    exact Int.not_lt.mpr hle hlt
  obtain ⟨distinct, hdistinct⟩ := estimateDistinct_returns (by omega : 0 < arr.length)
  rw [classifyRuns]
  dsimp only
  by_cases hs : (countRuns flt arr).isSorted = true
  · have hone : ∀ b : Bool, ∃ d, (if b then some 1 else estimateDistinct arr) = some d := by
      intro b
      cases b with
      | true => exact ⟨1, rfl⟩
      | false => exact ⟨distinct, hdistinct⟩
    obtain ⟨d, hd⟩ := hone (!decide (arr[0] < arr[arr.length - 1]))
    rw [if_pos hs, load_of_lt (by omega), Option.bind_eq_bind, Option.bind_some, load_of_lt (by omega),
      Option.bind_some, hd]
    exact ⟨_, rfl, iff_of_true rfl (hsorted.mp hs), iff_of_false nofun (hboth (hsorted.mp hs)),
      fun hne => absurd rfl hne⟩
  · rw [if_neg hs]
    have hnot : ¬ arr.IsChain fun x y => x ≤ y := fun hchain => hs (hsorted.mpr hchain)
    by_cases hr : (countRuns flt arr).isReversed = true
    · rw [if_pos hr, hdistinct]
      exact ⟨_, rfl, iff_of_false nofun hnot, iff_of_true rfl (hreversed.mp hr), fun _ hne => absurd rfl hne⟩
    · rw [if_neg hr]
      obtain ⟨p, hrun, hp⟩ := @classifyUnsorted_returns flt arr
        { Profile.start flt arr.length with
          runCount := (countRuns flt arr).runCount
          monoCount := (countRuns flt arr).monoCount
          maxRunLen := (countRuns flt arr).maxRunLen
          maxDescentGap := (countRuns flt arr).maxDescentGap } (by omega) rfl
      exact ⟨p, hrun, iff_of_false hp.not_sorted hnot,
        iff_of_false hp.not_reversed fun hchain => hr (hreversed.mpr hchain), fun _ _ => hp⟩

theorem subClassifyInternal_returns (flt : Floats) (arr : List α) :
    ∃ p, subClassifyInternal flt arr = some p := by
  rw [subClassifyInternal, subClassifyCore]
  by_cases hshort : arr.length ≤ 1
  · rw [if_pos hshort]
    exact ⟨_, rfl⟩
  · obtain ⟨p, hrun, -⟩ := classifyRuns_spec flt
      (by rw [List.length_map]; omega : 2 ≤ (arr.map SubInt.value).length)
    rw [if_neg hshort]
    exact ⟨p, hrun⟩

/-! ## The largest pile -/

open Subsequence

/-- `2 4 3 1`, and then the numbers from 5 to 256 in order. -/
def dealt256 : List Int := [2, 4, 3, 1] ++ (List.range' 5 252).map Int.ofNat

theorem length_dealt256 : dealt256.length = 256 := by
  rw [dealt256, List.length_append, List.length_map, List.length_range']
  rfl

set_option maxRecDepth 8192 in
theorem countRuns_dealt256 (flt : Floats) :
    let runs := countRuns flt dealt256
    runs.isSorted = false ∧ runs.isReversed = false ∧ runs.runCount = 2 ∧ runs.maxRunLen = 252 :=
  ⟨rfl, rfl, rfl, rfl⟩

theorem classifyRuns_dealt256 (flt : Floats) {t : TableauProfile} (ht : patienceSortWithTableau dealt256 = some t) :
    ∃ p, classifyRuns flt dealt256 = some p ∧ p.lisLength = t.lisLength ∧ p.ldsLength = t.ldsLength := by
  have hlen := length_dealt256
  obtain ⟨distinct, hdistinct⟩ := @estimateDistinct_returns dealt256 (by omega)
  obtain ⟨ratio, hratio⟩ := sampleInversionRatio_returns flt dealt256
  obtain ⟨hsorted, hreversed, hruns, hlong⟩ := countRuns_dealt256 flt
  have hrot : detectRotation dealt256 = some 0 := by decide +kernel
  rw [classifyRuns]
  dsimp only
  rw [hsorted, hreversed, hruns, hlong, classifyUnsorted]
  simp [hlen, hdistinct, hratio, ht, hrot, Profile.tableau, patienceThreshold, tableauMaxN]

/-- No pile has more than two elements, and `4 3 1` decreases. -/
theorem not_longest_piles :
    ∃ t, patienceSortWithTableau dealt256 = some t
      ∧ (∀ flt, ∃ p, classifyRuns flt dealt256 = some p
        ∧ p.lisLength = t.lisLength ∧ p.ldsLength = t.ldsLength)
      ∧ ¬ Longest (fun x y => y ≤ x) dealt256 t.ldsLength := by
  have hrising : ((List.range' 5 252).map Int.ofNat).Pairwise (· < ·) :=
    List.pairwise_map.mpr ((List.pairwise_lt_range' (s := 5) (n := 252)).imp fun hlt => Int.ofNat_lt.mpr hlt)
  have habove : ∀ p ∈ ranked ([2, 4, 3, 1] : List Int), ∀ v ∈ (List.range' 5 252).map Int.ofNat, p.1 < v := by
    intro p hp v hv
    obtain ⟨n, hn, rfl⟩ := List.mem_map.mp hv
    have hsmall : ∀ p ∈ ranked ([2, 4, 3, 1] : List Int), p.1 < 5 := by decide
    have hlarge : 5 ≤ n := (List.mem_range'_1.mp hn).1
    exact lt_of_lt_of_le (hsmall p hp) (Int.ofNat_le.mpr hlarge)
  have hfirst : ∀ k, (level k (ranked ([2, 4, 3, 1] : List Int))).length ≤ 2 := by
    intro k
    have hranks : ranked ([2, 4, 3, 1] : List Int) = [(2, 1), (4, 2), (3, 2), (1, 1)] := rfl
    rw [hranks]
    by_cases h1 : k = 1
    · rw [h1]; decide
    by_cases h2 : k = 2
    · rw [h2]; decide
    have hnone : level k ([(2, 1), (4, 2), (3, 2), (1, 1)] : List (Int × Nat)) = [] := by
      simp [level, Ne.symm h1, Ne.symm h2]
    rw [hnone]
    exact Nat.zero_le 2
  have hfew := length_level_rising (by decide) hrising habove hfirst
  have hlong256 : ¬ dealt256.length ≤ 1 := by
    rw [length_dealt256]
    decide
  obtain ⟨st, hdealt, hrun⟩ := patienceSortWithTableau_dealt hlong256
  refine ⟨_, hrun, fun flt => classifyRuns_dealt256 flt hrun, fun hlds => ?_⟩
  have hsub : List.Sublist [4, 3, 1] dealt256 :=
    List.Sublist.trans (by decide : List.Sublist ([4, 3, 1] : List Int) [2, 4, 3, 1])
      (List.sublist_append_left _ _)
  have hlong := hlds.most [4, 3, 1] hsub (by decide)
  obtain ⟨k, hk⟩ := hdealt.reached
  have hle := hfew k
  rw [ranked, ← rankedFrom_append, ← dealt256, ← ranked, hk] at hle
  exact absurd (hlong.trans hle) (by decide)

end Montauk.Sort
