import Montauk.Sort.ClassifyAvx
import Montauk.Sort.Counting
import Montauk.Sort.RadixPar
import Montauk.Sort.Structured

/-!
# The sort of the integer types

`sublimation` sends an array down one of about ten routes: the counting sort
first, then by the verdict of the classifier, in parallel from 250000 elements
on. The template is included for each type with its own radix sort and
classifier (`SubTyped`). A verdict is trusted: an array that is called sorted is
left alone, one that is called reversed is turned round. `Profile.Fits` says
what each verdict has to guarantee for its route.

Every route gives the same array, whatever memory there is and however the
workers take turns (`SubTyped.sublimation_spec`).
-/

namespace Montauk.Sort

open Montauk.Par

/-! ## Chunks -/

section
variable {α : Type}

/-- The length of chunk `i` of `parts`. -/
def chunkLen (n parts i : Nat) : Nat := if i = parts - 1 then n - i * (n / parts) else n / parts

theorem offset_chunkLen {n parts i : Nat} (hi : i < parts) : offset (chunkLen n parts) i = i * (n / parts) := by
  induction i with
  | zero => rw [Nat.zero_mul]; rfl
  | succ i ih => rw [offset_succ, ih (by omega), chunkLen, if_neg (by omega), Nat.succ_mul]

theorem exists_chunks {parts : Nat} (hparts : 0 < parts) (arr : List α) :
    ∃ B, arr = blocks parts B ∧ ∀ i < parts, (B i).length = chunkLen arr.length parts i := by
  refine exists_blocks (chunkLen arr.length parts) arr parts ?_
  obtain ⟨k, rfl⟩ : ∃ k, parts = k + 1 := ⟨parts - 1, by omega⟩
  have hle : k * (arr.length / (k + 1)) ≤ (k + 1) * (arr.length / (k + 1)) :=
    Nat.mul_le_mul_right _ (Nat.le_succ k)
  have hall := Nat.mul_div_le arr.length (k + 1)
  have hoffset : offset (chunkLen arr.length (k + 1)) k = k * (arr.length / (k + 1)) :=
    offset_chunkLen (Nat.lt_succ_self k)
  rw [offset_succ, hoffset, chunkLen, if_pos (Nat.add_sub_cancel k 1).symm]
  omega

theorem chunkLen_pos {n parts i : Nat} (hcs : 0 < n / parts) (hi : i < parts) : 0 < chunkLen n parts i := by
  rw [chunkLen]
  split
  · -- the last chunk takes what the others leave
    have hall := Nat.mul_div_le n parts
    have hlast : (i + 1) * (n / parts) ≤ parts * (n / parts) := Nat.mul_le_mul_right _ hi
    rw [Nat.succ_mul] at hlast
    omega
  · exact hcs

theorem runsOf_chunks {n parts : Nat} {B : Nat → List α}
    (hB : ∀ i < parts, (B i).length = chunkLen n parts i) :
    runsOf 0 ((List.range parts).map B)
      = (List.range parts).map fun i => ⟨i * (n / parts), chunkLen n parts i⟩ := by
  have hprefix : ∀ k ≤ parts, runsOf 0 ((List.range k).map B)
      = (List.range k).map fun i => ⟨i * (n / parts), chunkLen n parts i⟩ := by
    intro k
    induction k with
    | zero => exact fun _ => rfl
    | succ k ih =>
        intro hk
        have hplace : ((List.range k).map B).flatten.length = k * (n / parts) := by
          rw [← List.flatMap_def]
          show (blocks k B).length = _
          rw [length_blocks, offset_congr fun i hi => hB i (by omega), offset_chunkLen (by omega)]
        rw [List.range_succ, List.map_append, List.map_append, List.map_singleton, List.map_singleton,
          runsOf_concat, ih (by omega), hplace, hB k (by omega)]
  exact hprefix parts (Nat.le_refl parts)

end

/-! ## The routes -/

/-- What each verdict means for the route it selects. -/
structure Profile.Fits {α F : Type} [SubInt α] (arr : List α) (p : Profile F) : Prop where
  sorted : p.disorder = .sorted → Ascending SubInt.value arr
  reversed : p.disorder = .reversed → arr.Pairwise fun x y => SubInt.value y ≤ SubInt.value x
  rotated : p.disorder = .nearlySorted → 0 < p.rotationPoint → Rotated (arr.map SubInt.value) p.rotationPoint
  phased : p.disorder = .phased → 0 < p.phaseBoundary ∧ p.phaseBoundary < arr.length

/-- What the template is included with for a type: the radix sort, by the
memory it gets, and the classifier. -/
structure SubTyped (flt : Floats) (α : Type) [SubWord α] where
  Scratch : Type
  radixSort : Scratch → List α → Option (List α)
  classify : List α → Option (Profile flt.F)
  radixSort_spec : ∀ mem arr, ∃ out, radixSort mem arr = some out ∧ StableSort SubInt.value arr out
  classify_spec : ∀ arr, ∃ p, classify arr = some p ∧ p.Fits arr

/-- What the machine gives one serial sort: the memory of its radix sorts, and
of its merges. -/
structure SortMem (Scratch : Type) where
  first : Scratch
  second : Scratch
  merge : MergeMem

/-- What the machine gives the parallel sort of a structured array: the memory
of the chunk at each place, the buffer of the last merge, and the memory of the
serial sort in place of it. -/
structure ForkMem (Scratch : Type) where
  chunk : Nat → SortMem Scratch
  buffer : Bool
  serial : SortMem Scratch

def subParallelThreshold : Nat := 250000

/-- `SUB_RADIX_PARALLEL_MIN`, which is `SUB_RADIX_PAR_MIN_T` of every integer
type. -/
def subRadixParallelMin : Nat := subParallelThreshold

def subSmergeMinChunk : Nat := 16384

variable {α ρ : Type} [SubWord α] {flt : Floats}

section
variable (T : SubTyped flt α) (resistance : Int → Int → ρ) (gt : ρ → ρ → Bool)

/-- The `switch` of `sub_sort_internal`. -/
def SubTyped.sortByVerdict (mem : SortMem T.Scratch) (p : Profile flt.F) (arr : List α) : Option (List α) :=
  match p.disorder with
  | .sorted => some arr
  | .reversed => reverseAll arr
  | .phased =>
      sortPhased (T.radixSort mem.first) (T.radixSort mem.second) resistance gt mem.merge p.phaseBoundary arr
  | .nearlySorted => sortNearlySorted resistance gt mem.merge p arr
  | .fewUnique => do
      let (done, arr) ← countingSortFewUnique arr
      if done then some arr else T.radixSort mem.first arr
  | .random => T.radixSort mem.first arr

/-- `sub_sort_internal`; `profileIn` is the caller's classification. -/
def SubTyped.subSortInternal (mem : SortMem T.Scratch) (profileIn : Option (Profile flt.F)) (arr : List α) :
    Option (List α) :=
  if arr.length ≤ 1 then some arr
  else do
    let p ← (match profileIn with
      | some p => some p
      | none => T.classify arr)
    T.sortByVerdict resistance gt mem p arr

/-! ## The parallel sort of a structured array -/

/-- Where `smerge_frame` is: at its start, or about to push chunk `i`. -/
inductive ForkWork where
  | run (f : Frame)
  | chunks (f : Frame) (i : Nat)

/-- The steps of `smerge_frame`. -/
def SubTyped.forkStep (mem : Nat → SortMem T.Scratch) (parts : Nat) (arr : List α) :
    ForkWork → Option (List α × Action Frame ForkWork)
  | .run f =>
      if f.depth = 0 then some (arr, .cont (.chunks f 0))
      else do
        let arr ← onWindow arr f.base f.n (T.subSortInternal resistance gt (mem f.base) none)
        some (arr, .done)
  | .chunks f i =>
      if i < parts then
        some (arr, .push ⟨f.base + i * (f.n / parts), chunkLen f.n parts i, 1⟩ (.chunks f (i + 1)))
      else some (arr, .done)

def SubTyped.fork (mem : Nat → SortMem T.Scratch) (parts : Nat) : Engine (List α) Frame ForkWork where
  start := .run
  step := T.forkStep resistance gt mem parts

/-- A bound for the steps of a call, with those of the frames it pushes. -/
def ForkWork.weight (parts : Nat) : ForkWork → Nat
  | .run f => if f.depth = 0 then 5 * parts + 4 else 2
  | .chunks _ i => 5 * (parts - i) + 3

/-- The chunks of `sub_smerge_par`. -/
def forkParts (workers n : Nat) : Nat := min (min (workers * 4 % 2 ^ 64) (n / subSmergeMinChunk)) 256

def SubTyped.subSmergePar (mem : ForkMem T.Scratch) (sched : Schedule) (workers : Nat) (arr : List α) :
    Option (List α) := do
  let n := arr.length
  let parts := forkParts workers n
  if n < 2 ∨ workers < 2 ∨ parts < 2 then T.subSortInternal resistance gt mem.serial none arr
  else if !sched.engineOk then T.subSortInternal resistance gt mem.serial none arr
  else do
    let arr ← subDfsRun (T.fork resistance gt mem.chunk parts) (ForkWork.weight parts) sched workers arr
      ⟨0, n, 0⟩
    if mem.buffer then
      mergeReff resistance gt SubInt.value (n / 2 + 1) subMinGallop
        ((List.range parts).map fun i => ⟨i * (n / parts), chunkLen n parts i⟩) arr
    else T.subSortInternal resistance gt mem.serial none arr

/-! ## The entries -/

/-- `fast_path_dispatch`: whether the array is done, the profile, and the
array. -/
def SubTyped.fastPathDispatch (mem : SortMem T.Scratch) (arr : List α) :
    Option (Bool × Option (Profile flt.F) × List α) := do
  let (done, arr) ← countingSortFewUnique arr
  if done then some (true, none, arr)
  else do
    let p ← T.classify arr
    match p.disorder with
    | .sorted => some (true, some p, arr)
    | .reversed => do
        let arr ← reverseAll arr
        some (true, some p, arr)
    | .nearlySorted =>
        if subParallelThreshold ≤ arr.length then some (false, some p, arr)
        else do
          let arr ← sortNearlySorted resistance gt mem.merge p arr
          some (true, some p, arr)
    | .phased =>
        if subParallelThreshold ≤ arr.length then some (false, some p, arr)
        else do
          let arr ← sortPhased (T.radixSort mem.first) (T.radixSort mem.second) resistance gt mem.merge
            p.phaseBoundary arr
          some (true, some p, arr)
    | _ => some (false, some p, arr)

/-- `sublimation`; `workers` is `sub_default_num_workers()`. -/
def SubTyped.sublimation (fast : SortMem T.Scratch) (fork : ForkMem T.Scratch) (sched : Schedule)
    (workers : Nat) (arr : List α) : Option (List α) :=
  if arr.length ≤ 1 then some arr
  else do
    let (done, profile, arr) ← T.fastPathDispatch resistance gt fast arr
    if done then some arr
    else do
      let p ← profile
      if subParallelThreshold ≤ arr.length ∧ 2 ≤ workers then
        if p.disorder ≠ .random then T.subSmergePar resistance gt fork sched workers arr
        else if subRadixParallelMin ≤ arr.length then subRadixSortPar sched workers arr
        else T.subSortInternal resistance gt fork.serial (some p) arr
      else T.subSortInternal resistance gt fork.serial (some p) arr

/-! ## The serial routes -/

variable {T resistance gt} {arr : List α} {p : Profile flt.F}

theorem SubTyped.sortByVerdict_spec (mem : SortMem T.Scratch) (h : p.Fits arr) :
    ∃ out, T.sortByVerdict resistance gt mem p arr = some out ∧ StableSort SubInt.value arr out := by
  rw [sortByVerdict]
  cases hp : p.disorder with
  | sorted => exact ⟨arr, rfl, .refl (h.sorted hp)⟩
  | reversed => exact reverseAll_spec (h.reversed hp)
  | phased =>
      obtain ⟨hpos, hlt⟩ := h.phased hp
      exact sortPhased_spec resistance gt (T.radixSort_spec mem.first) (T.radixSort_spec mem.second) mem.merge
        hpos hlt
  | nearlySorted => exact sortNearlySorted_spec resistance gt mem.merge p (h.rotated hp)
  | random => exact T.radixSort_spec mem.first arr
  | fewUnique =>
      obtain ⟨done, out, hrun, htrue, hfalse⟩ := countingSortFewUnique_spec arr
      dsimp only
      rw [hrun, Option.bind_eq_bind, Option.bind_some]
      cases done with
      | true => exact ⟨out, rfl, htrue rfl⟩
      | false =>
          obtain rfl := hfalse rfl
          exact T.radixSort_spec mem.first out

/-- **`sub_sort_internal`** sorts, with a profile that fits the array or with
its own. -/
theorem SubTyped.subSortInternal_spec (mem : SortMem T.Scratch) (profileIn : Option (Profile flt.F))
    (h : ∀ p, profileIn = some p → p.Fits arr) :
    ∃ out, T.subSortInternal resistance gt mem profileIn arr = some out ∧ StableSort SubInt.value arr out := by
  rw [subSortInternal.eq_def]
  by_cases hshort : arr.length ≤ 1
  · rw [if_pos hshort]
    exact ⟨arr, rfl, stableSort_short _ (by omega)⟩
  · rw [if_neg hshort]
    cases profileIn with
    | some p => exact sortByVerdict_spec mem (h p rfl)
    | none =>
        obtain ⟨p, hrun, hfits⟩ := T.classify_spec arr
        dsimp only
        rw [hrun, Option.bind_eq_bind, Option.bind_some]
        exact sortByVerdict_spec mem hfits

end

/-! ## The parallel route -/

/-- The chunks that a piece of work will have sorted. -/
def ForkWork.todo (parts n : Nat) : ForkWork → List Nat
  | .run f => if f.depth = 0 then List.range parts else [f.base / (n / parts)]
  | .chunks _ i => List.range' i (parts - i)

/-- A frame is the whole array or a chunk. -/
def ForkWork.Ok (parts n : Nat) : ForkWork → Prop
  | .run f => f = ⟨0, n, 0⟩ ∨ ∃ i < parts, f = ⟨i * (n / parts), chunkLen n parts i, 1⟩
  | .chunks f _ => f = ⟨0, n, 0⟩

section
variable {T : SubTyped flt α} {resistance : Int → Int → ρ} {gt : ρ → ρ → Bool} {parts n : Nat}
  {A B : Nat → List α} {arr : List α} {pending : List ForkWork}

/-- The chunks are rearranged, each for itself, and sorted unless their work is
pending. -/
structure Forked (parts n : Nat) (A : Nat → List α) (arr : List α) (pending : List ForkWork) : Prop where
  chunks : ∃ B, arr = blocks parts B ∧ ∀ i < parts, SameOrder SubInt.value (A i) (B i) ∧
    (i ∉ pending.flatMap (ForkWork.todo parts n) → Ascending SubInt.value (B i))
  ok : ∀ w ∈ pending, w.Ok parts n

theorem Forked.replace {w : ForkWork} {ws : List ForkWork} (h : Forked parts n A arr (w :: pending))
    (htodo : ws.flatMap (ForkWork.todo parts n) = w.todo parts n) (hok : ∀ v ∈ ws, v.Ok parts n) :
    Forked parts n A arr (ws ++ pending) := by
  constructor
  · obtain ⟨B, harr, hB⟩ := h.chunks
    refine ⟨B, harr, fun i hi => ⟨(hB i hi).1, fun hnot => (hB i hi).2 ?_⟩⟩
    rwa [List.flatMap_append, htodo] at hnot
  · intro v hv
    rcases List.mem_append.mp hv with hv | hv
    · exact hok v hv
    · exact h.ok v (List.mem_cons_of_mem w hv)

theorem Forked.sort (hA : ∀ i < parts, (A i).length = chunkLen n parts i) (hcs : 0 < n / parts) {i : Nat}
    (hi : i < parts) {f : List α → Option (List α)}
    (hf : ∀ w, ∃ w', f w = some w' ∧ StableSort SubInt.value w w')
    (h : Forked parts n A arr (.run ⟨i * (n / parts), chunkLen n parts i, 1⟩ :: pending)) :
    ∃ arr', onWindow arr (i * (n / parts)) (chunkLen n parts i) f = some arr' ∧ Forked parts n A arr' pending := by
  obtain ⟨B, rfl, hB⟩ := h.chunks
  have hlen : ∀ j < parts, (B j).length = chunkLen n parts j := fun j hj =>
    (hB j hj).1.perm.length_eq.trans (hA j hj)
  obtain ⟨w, hrun, hsort⟩ := hf (B i)
  have hplace : i * (n / parts) = offset (fun d => (B d).length) i := by
    rw [offset_congr fun d hd => hlen d (by omega), offset_chunkLen hi]
  refine ⟨_, onWindow_blocks B hi hplace (hlen i hi).symm hrun hsort.length_eq, ⟨_, rfl, fun j hj => ?_⟩,
    fun v hv => h.ok v (List.mem_cons_of_mem _ hv)⟩
  by_cases hji : j = i
  · subst hji
    rw [Function.update_self]
    exact ⟨(hB j hj).1.trans hsort.stable, fun _ => hsort.sorted⟩
  · rw [Function.update_of_ne hji]
    refine ⟨(hB j hj).1, fun hnot => (hB j hj).2 fun hmem => ?_⟩
    rw [List.flatMap_cons, List.mem_append] at hmem
    refine hmem.elim (fun hmem => hji ?_) hnot
    -- the frame's own chunk
    rw [ForkWork.todo, if_neg Nat.one_ne_zero, Nat.mul_div_cancel _ hcs] at hmem
    exact List.mem_singleton.mp hmem

theorem SubTyped.fork_keeps (T : SubTyped flt α) (resistance : Int → Int → ρ) (gt : ρ → ρ → Bool)
    (hA : ∀ i < parts, (A i).length = chunkLen n parts i) (hcs : 0 < n / parts)
    (mem : Nat → SortMem T.Scratch) :
    (T.fork resistance gt mem parts).Keeps (Forked parts n A) := by
  constructor
  · rintro arr P Q hPQ ⟨⟨B, harr, hB⟩, hok⟩
    refine ⟨⟨B, harr, fun i hi => ⟨(hB i hi).1, fun hnot => (hB i hi).2 fun hmem => hnot ?_⟩⟩,
      fun w hw => hok w (hPQ.mem_iff.mpr hw)⟩
    exact (hPQ.flatMap_right _).mem_iff.mp hmem
  · intro arr w P h
    have hself := h.ok w List.mem_cons_self
    cases w with
    | run f =>
        rcases hself with rfl | ⟨i, hi, rfl⟩
        · refine ⟨arr, .cont (.chunks ⟨0, n, 0⟩ 0), rfl, h.replace ?_ ?_⟩
          · exact (List.append_nil _).trans (List.range_eq_range' ..).symm
          · exact fun v hv => List.mem_singleton.mp hv ▸ rfl
        · have hf : ∀ w, ∃ w', T.subSortInternal resistance gt (mem (i * (n / parts))) none w = some w' ∧
              StableSort SubInt.value w w' := fun w => SubTyped.subSortInternal_spec _ none nofun
          obtain ⟨arr', hrun, hnext⟩ := h.sort hA hcs hi hf
          refine ⟨arr', .done, ?_, hnext⟩
          have hstep : T.forkStep resistance gt mem parts arr
              (.run ⟨i * (n / parts), chunkLen n parts i, 1⟩) = some (arr', .done) := by
            rw [SubTyped.forkStep, if_neg Nat.one_ne_zero]
            dsimp only
            rw [hrun]
            rfl
          exact hstep
    | chunks f i =>
        obtain rfl := hself
        by_cases hi : i < parts
        · refine ⟨arr, .push ⟨0 + i * (n / parts), chunkLen n parts i, 1⟩ (.chunks ⟨0, n, 0⟩ (i + 1)), if_pos hi,
            h.replace ?_ ?_⟩
          · obtain ⟨k, hk⟩ : ∃ k, parts - i = k + 1 := ⟨parts - i - 1, by omega⟩
            have hnext : parts - (i + 1) = k := by omega
            show [(0 + i * (n / parts)) / (n / parts)] ++ (List.range' (i + 1) (parts - (i + 1)) ++ [])
              = List.range' i (parts - i)
            rw [Nat.zero_add, Nat.mul_div_cancel _ hcs, List.append_nil, hk, hnext, List.range'_succ]
            rfl
          · rw [Nat.zero_add]
            exact List.forall_mem_cons.mpr ⟨.inr ⟨i, hi, rfl⟩, List.forall_mem_singleton.mpr rfl⟩
        · refine ⟨arr, .done, if_neg hi, h.replace ?_ nofun⟩
          have hzero : parts - i = 0 := by omega
          show [] = List.range' i (parts - i)
          rw [hzero]
          rfl

theorem SubTyped.fork_shrinks (T : SubTyped flt α) (resistance : Int → Int → ρ) (gt : ρ → ρ → Bool)
    (mem : Nat → SortMem T.Scratch) :
    (T.fork resistance gt mem parts).Shrinks (ForkWork.weight parts) := by
  intro arr w arr' act hstep
  have hstep' : T.forkStep resistance gt mem parts arr w = some (arr', act) := hstep
  cases w with
  | run f =>
      rw [SubTyped.forkStep] at hstep'
      split at hstep'
      · rename_i hroot
        obtain ⟨-, rfl⟩ := Prod.mk.inj (Option.some.inj hstep')
        show 5 * (parts - 0) + 3 < if f.depth = 0 then 5 * parts + 4 else 2
        rw [if_pos hroot, Nat.sub_zero]
        exact Nat.lt_succ_self _
      · rename_i hchunk
        obtain ⟨_, -, hdone⟩ := Option.bind_eq_some_iff.mp hstep'
        obtain ⟨-, rfl⟩ := Prod.mk.inj (Option.some.inj hdone)
        show 1 < if f.depth = 0 then 5 * parts + 4 else 2
        rw [if_neg hchunk]
        exact Nat.lt_succ_self 1
  | chunks f i =>
      rw [SubTyped.forkStep] at hstep'
      split at hstep'
      · rename_i hi
        obtain ⟨-, rfl⟩ := Prod.mk.inj (Option.some.inj hstep')
        show 2 + 2 + (5 * (parts - (i + 1)) + 3) < 5 * (parts - i) + 3
        omega
      · obtain ⟨-, rfl⟩ := Prod.mk.inj (Option.some.inj hstep')
        show 1 < 5 * (parts - i) + 3
        omega

end

section
variable {T : SubTyped flt α} {resistance : Int → Int → ρ} {gt : ρ → ρ → Bool}

theorem Forked.tiled {n parts : Nat} {A : Nat → List α} {arr : List α} (hcs : 0 < n / parts)
    (hA : ∀ i < parts, (A i).length = chunkLen n parts i) (h : Forked parts n A arr []) :
    ∃ segs, Tiled SubInt.value (blocks parts A) arr segs ∧ segs.length = parts ∧
      runsOf 0 segs = (List.range parts).map fun i => ⟨i * (n / parts), chunkLen n parts i⟩ := by
  obtain ⟨B, rfl, hB⟩ := h.chunks
  have hlen : ∀ i < parts, (B i).length = chunkLen n parts i := fun i hi =>
    (hB i hi).1.perm.length_eq.trans (hA i hi)
  refine ⟨(List.range parts).map B, ⟨List.flatMap_def .., ?_, ?_⟩, ?_, runsOf_chunks hlen⟩
  · intro seg hseg
    obtain ⟨i, hi, rfl⟩ := List.mem_map.mp hseg
    rw [List.mem_range] at hi
    refine ⟨List.ne_nil_of_length_pos ?_, (hB i hi).2 nofun⟩
    rw [hlen i hi]
    exact chunkLen_pos hcs hi
  · exact sameOrder_blocks fun i hi => (hB i hi).1
  · rw [List.length_map, List.length_range]

theorem forkParts_le (workers n : Nat) : forkParts workers n ≤ 256 ∧ forkParts workers n ≤ n / subSmergeMinChunk :=
  ⟨Nat.min_le_right .., Nat.le_trans (Nat.min_le_left ..) (Nat.min_le_right ..)⟩

/-- **`sub_smerge_par`** sorts under every schedule, with and without its
buffer. -/
theorem SubTyped.subSmergePar_spec (mem : ForkMem T.Scratch) (sched : Schedule) (workers : Nat) (arr : List α) :
    ∃ out, T.subSmergePar resistance gt mem sched workers arr = some out ∧ StableSort SubInt.value arr out := by
  have hserial : ∃ out, T.subSortInternal resistance gt mem.serial none arr = some out ∧
      StableSort SubInt.value arr out := SubTyped.subSortInternal_spec _ none nofun
  rw [subSmergePar]
  split
  · exact hserial
  · rename_i hlarge
    split
    · exact hserial
    · obtain ⟨hfew, hchunk⟩ := forkParts_le workers arr.length
      have hmany : 2 ≤ forkParts workers arr.length := by omega
      have hcs : 0 < arr.length / forkParts workers arr.length := by
        refine Nat.div_pos (Nat.le_trans hchunk (Nat.div_le_self ..)) (by omega)
      generalize forkParts workers arr.length = parts at hfew hmany hcs
      obtain ⟨A, harr, hA⟩ := exists_chunks (show 0 < parts by omega) arr
      have hroot : Forked parts arr.length A arr [.run ⟨0, arr.length, 0⟩] := by
        refine ⟨⟨A, harr, fun i hi => ⟨fun _ => rfl, fun hnot => ?_⟩⟩, List.forall_mem_singleton.mpr (.inl rfl)⟩
        exact absurd (List.mem_append_left _ (List.mem_range.mpr hi)) hnot
      obtain ⟨arr', hrun, hend⟩ := subDfsRun_spec (T.fork_keeps resistance gt hA hcs mem.chunk)
        (T.fork_shrinks resistance gt mem.chunk) sched workers hroot
      rw [hrun, Option.bind_eq_bind, Option.bind_some]
      obtain ⟨segs, htiled, hcount, hruns⟩ := hend.tiled hcs hA
      have hlen : arr'.length = arr.length := by
        rw [harr]
        exact htiled.same.perm.length_eq
      rw [← harr] at htiled
      rw [← hruns]
      split
      · exact mergeReff_spec resistance gt htiled (by omega) (by rw [hcount, maxRuns]; omega) (by omega)
      · have hagain : ∃ out, T.subSortInternal resistance gt mem.serial none arr' = some out ∧
            StableSort SubInt.value arr' out := SubTyped.subSortInternal_spec _ none nofun
        obtain ⟨out, hout, hsort⟩ := hagain
        exact ⟨out, hout, hsort.sorted, htiled.same.trans hsort.stable⟩

/-! ## The entries -/

/-- **`fast_path_dispatch`**: the array is sorted, or as it was with a profile
that fits it. -/
theorem SubTyped.fastPathDispatch_spec (mem : SortMem T.Scratch) (arr : List α) :
    ∃ done profile out, T.fastPathDispatch resistance gt mem arr = some (done, profile, out) ∧
      (done = true → StableSort SubInt.value arr out) ∧
      (done = false → out = arr ∧ ∃ p, profile = some p ∧ p.Fits arr) := by
  obtain ⟨done, out, hcount, htrue, hfalse⟩ := countingSortFewUnique_spec arr
  rw [fastPathDispatch, hcount, Option.bind_eq_bind, Option.bind_some]
  dsimp only
  cases done with
  | true => exact ⟨true, none, out, rfl, htrue, nofun⟩
  | false =>
      obtain rfl := hfalse rfl
      rw [if_neg Bool.false_ne_true]
      obtain ⟨p, hrun, hfits⟩ := T.classify_spec out
      rw [hrun, Option.bind_eq_bind, Option.bind_some]
      -- a route that is taken here
      have hdone : ∀ {r : Option (List α)}, (∃ w, r = some w ∧ StableSort SubInt.value out w) →
          ∃ done profile w, (do let w ← r; some (true, some p, w)) = some (done, profile, w) ∧
            (done = true → StableSort SubInt.value out w) ∧
            (done = false → w = out ∧ ∃ p, profile = some p ∧ p.Fits out) := by
        rintro r ⟨w, rfl, hsort⟩
        exact ⟨true, some p, w, rfl, fun _ => hsort, nofun⟩
      -- a profile that is left to the caller
      have hleft : ∃ done profile w, some (false, some p, out) = some (done, profile, w) ∧
          (done = true → StableSort SubInt.value out w) ∧
          (done = false → w = out ∧ ∃ p, profile = some p ∧ p.Fits out) :=
        ⟨false, some p, out, rfl, nofun, fun _ => ⟨rfl, p, rfl, hfits⟩⟩
      cases hp : p.disorder with
      | sorted => exact ⟨true, some p, out, rfl, fun _ => .refl (hfits.sorted hp), nofun⟩
      | reversed => exact hdone (reverseAll_spec (hfits.reversed hp))
      | nearlySorted =>
          dsimp only
          split
          · exact hleft
          · exact hdone (sortNearlySorted_spec resistance gt mem.merge p (hfits.rotated hp))
      | phased =>
          dsimp only
          split
          · exact hleft
          · obtain ⟨hpos, hlt⟩ := hfits.phased hp
            exact hdone (sortPhased_spec resistance gt (T.radixSort_spec mem.first) (T.radixSort_spec mem.second)
              mem.merge hpos hlt)
      | fewUnique => exact hleft
      | random => exact hleft

/-- **`sublimation`** sorts, for every number of workers, whatever memory there
is. -/
theorem SubTyped.sublimation_spec (fast : SortMem T.Scratch) (fork : ForkMem T.Scratch) (sched : Schedule)
    (workers : Nat) (arr : List α) :
    ∃ out, T.sublimation resistance gt fast fork sched workers arr = some out ∧
      StableSort SubInt.value arr out := by
  rw [sublimation]
  split
  · exact ⟨arr, rfl, stableSort_short _ (by omega)⟩
  · obtain ⟨done, profile, out, hrun, htrue, hfalse⟩ := fastPathDispatch_spec fast arr
    rw [hrun, Option.bind_eq_bind, Option.bind_some]
    dsimp only
    cases done with
    | true => exact ⟨out, rfl, htrue rfl⟩
    | false =>
        obtain ⟨rfl, p, rfl, hfits⟩ := hfalse rfl
        rw [if_neg Bool.false_ne_true, Option.bind_eq_bind, Option.bind_some]
        have hserial : ∃ w, T.subSortInternal resistance gt fork.serial (some p) out = some w ∧
            StableSort SubInt.value out w :=
          subSortInternal_spec _ (some p) fun q hq => Option.some.inj hq ▸ hfits
        split
        · split
          · exact subSmergePar_spec fork sched workers out
          · split
            · exact subRadixSortPar_spec sched workers out
            · exact hserial
        · exact hserial

end

end Montauk.Sort
