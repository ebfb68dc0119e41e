import Montauk.Sort.Dispatch

/-!
# The public entries

`sublimation_u64`, `_i64`, `_u32`, `_i32` and `sublimation_i64_parallel` of
`sort.c`: the sort, included for each of the types, and the entry that takes the
number of threads from its caller. The classifier of `int64_t` begins with a
block of its own where AVX2 is compiled in.

What the sort asks of a type is that its verdicts are right
(`classifyRuns_fits`, `subClassifyInternalI64_fits`).
-/

namespace Montauk.Sort

open Montauk.Par

/-! ## The verdicts -/

section
variable {α : Type} [SubInt α] {F : Type} {flt : Floats}

theorem Profile.fits_of_values {arr : List α} {p : Profile F}
    (hsorted : p.disorder = .sorted → (arr.map SubInt.value).IsChain fun x y => x ≤ y)
    (hreversed : p.disorder = .reversed → (arr.map SubInt.value).IsChain fun x y => y ≤ x)
    (hother : p.disorder ≠ .sorted → p.disorder ≠ .reversed → p.Unsorted (arr.map SubInt.value)) : p.Fits arr where
  sorted h := by
    have hpairs : (arr.map SubInt.value).Pairwise fun x y => x ≤ y := List.isChain_iff_pairwise.mp (hsorted h)
    rw [List.pairwise_map] at hpairs
    exact hpairs
  reversed h := by
    have hpairs : (arr.map SubInt.value).Pairwise fun x y => x ≥ y := List.isChain_iff_pairwise.mp (hreversed h)
    rw [List.pairwise_map] at hpairs
    exact hpairs
  rotated h hpos := (hother (h ▸ nofun) (h ▸ nofun)).rotated hpos
  phased h := by
    obtain ⟨hpos, hlt⟩ := (hother (h ▸ nofun) (h ▸ nofun)).phased h
    rw [List.length_map] at hlt
    exact ⟨hpos, hlt⟩

theorem classifyRuns_fits {arr : List α} (h : 2 ≤ arr.length) :
    ∃ p, classifyRuns flt (arr.map SubInt.value) = some p ∧ p.Fits arr := by
  obtain ⟨p, hrun, hsorted, hreversed, hother⟩ := classifyRuns_spec flt
    (by rw [List.length_map]; exact h : 2 ≤ (arr.map SubInt.value).length)
  exact ⟨p, hrun, Profile.fits_of_values hsorted.mp
    (fun hp => (hreversed.mp hp).imp fun _ _ hlt => Int.le_of_lt hlt) hother⟩

theorem Profile.fits_short {arr : List α} {p : Profile F} (h : arr.length ≤ 1) (hp : p.disorder = .sorted) :
    p.Fits arr where
  sorted _ := (stableSort_short SubInt.value (by omega)).sorted
  reversed h := absurd (hp.symm.trans h) nofun
  rotated h := absurd (hp.symm.trans h) nofun
  phased h := absurd (hp.symm.trans h) nofun

theorem subClassifyInternal_fits (arr : List α) : ∃ p, subClassifyInternal flt arr = some p ∧ p.Fits arr := by
  rw [subClassifyInternal, subClassifyCore]
  split
  · exact ⟨_, rfl, Profile.fits_short ‹_› rfl⟩
  · exact classifyRuns_fits (by omega)

end

theorem subClassifyInternalI64_fits (flt : Floats) (arr : List Int64) :
    ∃ p, subClassifyInternalI64 flt arr = some p ∧ p.Fits arr := by
  rw [subClassifyInternalI64, subClassifyCore]
  split
  · exact ⟨_, rfl, Profile.fits_short ‹_› rfl⟩
  · rename_i hlong
    by_cases h8 : 8 ≤ arr.length
    · obtain ⟨done, hgate, hdone_sorted, hdone_reversed, hdone_none⟩ := avx2Gate_spec flt h8
      rw [hgate]
      by_cases hup : arr.IsChain fun x y => x ≤ y
      · obtain ⟨p, rfl, hp⟩ := hdone_sorted hup
        refine ⟨p, rfl, Profile.fits_of_values (fun _ => ?_) (fun h => Disorder.noConfusion (hp.symm.trans h))
          (fun h => absurd hp h)⟩
        rw [List.isChain_map]
        exact hup.imp fun x y => Int64.le_iff_toInt_le.mp
      · by_cases hdown : arr.IsChain fun x y => y ≤ x
        · obtain ⟨p, rfl, hp⟩ := hdone_reversed hup hdown
          refine ⟨p, rfl, Profile.fits_of_values (fun h => Disorder.noConfusion (hp.symm.trans h)) (fun _ => ?_)
            (fun _ h => absurd hp h)⟩
          rw [List.isChain_map]
          exact hdown.imp fun x y => Int64.le_iff_toInt_le.mp
        · rw [hdone_none hup hdown]
          exact classifyRuns_fits (by omega)
    · have hgate : avx2Gate flt arr = some none := if_pos (by omega)
      rw [hgate]
      exact classifyRuns_fits (by omega)

/-! ## The types -/

section
variable (flt : Floats)

def subU64 : SubTyped flt UInt64 where
  Scratch := RadixMem UInt64
  radixSort mem := subRadixSortU64 mem.buf
  classify := subClassifyInternal flt
  radixSort_spec := @SubRadix.subRadixSort_spec UInt64 _
  classify_spec := subClassifyInternal_fits

def subU32 : SubTyped flt UInt32 where
  Scratch := RadixMem UInt32
  radixSort mem := subRadixSortU32 mem.buf
  classify := subClassifyInternal flt
  radixSort_spec := @SubRadix.subRadixSort_spec UInt32 _
  classify_spec := subClassifyInternal_fits

def subI32 : SubTyped flt Int32 where
  Scratch := RadixMem UInt32
  radixSort mem := subRadixSortI32 mem.keysOk mem.buf
  classify := subClassifyInternal flt
  radixSort_spec := @SubRadix.subRadixSort_spec Int32 _
  classify_spec := subClassifyInternal_fits

/-- `avx2` says whether AVX2 is compiled in. -/
def subI64 (avx2 : Bool) : SubTyped flt Int64 where
  Scratch := RadixMem UInt64
  radixSort mem := subRadixSortI64 mem.keysOk mem.buf
  classify := if avx2 then subClassifyInternalI64 flt else subClassifyInternal flt
  radixSort_spec := @SubRadix.subRadixSort_spec Int64 _
  classify_spec := by
    cases avx2 with
    | true => exact subClassifyInternalI64_fits flt
    | false => exact subClassifyInternal_fits

/-! ## The entries -/

/-- What the machine gives a call of an entry: the memory of its routes, the
engine, and the number of workers by default. -/
structure EntryEnv (Word : Type) where
  fast : SortMem (RadixMem Word)
  fork : ForkMem (RadixMem Word)
  sched : Schedule
  defaultWorkers : Nat

variable {ρ : Type} (resistance : Int → Int → ρ) (gt : ρ → ρ → Bool)

def sublimationU64 (env : EntryEnv UInt64) (arr : List UInt64) : Option (List UInt64) :=
  (subU64 flt).sublimation resistance gt env.fast env.fork env.sched env.defaultWorkers arr

def sublimationU32 (env : EntryEnv UInt32) (arr : List UInt32) : Option (List UInt32) :=
  (subU32 flt).sublimation resistance gt env.fast env.fork env.sched env.defaultWorkers arr

def sublimationI32 (env : EntryEnv UInt32) (arr : List Int32) : Option (List Int32) :=
  (subI32 flt).sublimation resistance gt env.fast env.fork env.sched env.defaultWorkers arr

def sublimationI64 (avx2 : Bool) (env : EntryEnv UInt64) (arr : List Int64) : Option (List Int64) :=
  (subI64 flt avx2).sublimation resistance gt env.fast env.fork env.sched env.defaultWorkers arr

def sublimationI64Parallel (avx2 : Bool) (env : EntryEnv UInt64) (numThreads : Nat) (arr : List Int64) :
    Option (List Int64) :=
  if arr.length ≤ 1 then some arr
  else
    let numThreads := if numThreads = 0 then env.defaultWorkers else numThreads
    do
      let (done, profile, arr) ← (subI64 flt avx2).fastPathDispatch resistance gt env.fast arr
      if done then some arr
      else do
        let p ← profile
        if 2 ≤ numThreads ∧ subRadixParallelMin ≤ arr.length ∧ p.disorder = .random then
          subRadixSortPar env.sched numThreads arr
        else (subI64 flt avx2).subSortInternal resistance gt env.fork.serial (some p) arr

end

section
variable {flt : Floats} {ρ : Type} {resistance : Int → Int → ρ} {gt : ρ → ρ → Bool}

theorem sublimationU64_spec (env : EntryEnv UInt64) (arr : List UInt64) :
    ∃ out, sublimationU64 flt resistance gt env arr = some out ∧ StableSort SubInt.value arr out :=
  (subU64 flt).sublimation_spec env.fast env.fork env.sched env.defaultWorkers arr

theorem sublimationI64Parallel_spec (avx2 : Bool) (env : EntryEnv UInt64) (numThreads : Nat) (arr : List Int64) :
    ∃ out, sublimationI64Parallel flt resistance gt avx2 env numThreads arr = some out ∧
      StableSort SubInt.value arr out := by
  rw [sublimationI64Parallel]
  split
  · exact ⟨arr, rfl, stableSort_short _ (by omega)⟩
  · obtain ⟨done, profile, out, hrun, htrue, hfalse⟩ :=
      SubTyped.fastPathDispatch_spec (T := subI64 flt avx2) env.fast arr
    generalize (if numThreads = 0 then env.defaultWorkers else numThreads) = threads
    dsimp only
    rw [hrun, Option.bind_eq_bind, Option.bind_some]
    dsimp only
    cases done with
    | true => exact ⟨out, rfl, htrue rfl⟩
    | false =>
        obtain ⟨rfl, p, rfl, hfits⟩ := hfalse rfl
        rw [if_neg Bool.false_ne_true, Option.bind_eq_bind, Option.bind_some]
        split
        · exact subRadixSortPar_spec env.sched _ out
        · exact SubTyped.subSortInternal_spec _ (some p) fun q hq => Option.some.inj hq ▸ hfits

/-- `out` is the array, sorted. -/
def SortsTo {α : Type} [SubInt α] (arr out : List α) : Prop :=
  out.Perm arr ∧ out.Pairwise fun x y => SubInt.value x ≤ SubInt.value y

theorem StableSort.sortsTo {α : Type} [SubInt α] {arr out : List α} (h : StableSort SubInt.value arr out) :
    SortsTo arr out :=
  ⟨h.perm, h.sorted⟩

/-- **The entries** leave the array sorted: for every array, whatever memory
there is, for every number of workers and under every schedule. Each verdict
says what its route relies on. -/
theorem sublimation_sorts (flt : Floats) (resistance : Int → Int → ρ) (gt : ρ → ρ → Bool) (avx2 : Bool) :
    (∀ env arr, ∃ out, sublimationI32 flt resistance gt env arr = some out ∧ SortsTo arr out) ∧
    (∀ env arr, ∃ out, sublimationI64 flt resistance gt avx2 env arr = some out ∧ SortsTo arr out) ∧
    (∀ env arr, ∃ out, sublimationU32 flt resistance gt env arr = some out ∧ SortsTo arr out) ∧
    (∀ env arr, ∃ out, sublimationU64 flt resistance gt env arr = some out ∧ SortsTo arr out) ∧
    (∀ env numThreads arr, ∃ out,
      sublimationI64Parallel flt resistance gt avx2 env numThreads arr = some out ∧ SortsTo arr out) ∧
    (∀ arr, ∃ p, (subI32 flt).classify arr = some p ∧ p.Fits arr) ∧
    (∀ arr, ∃ p, (subI64 flt avx2).classify arr = some p ∧ p.Fits arr) ∧
    (∀ arr, ∃ p, (subU32 flt).classify arr = some p ∧ p.Fits arr) ∧
    (∀ arr, ∃ p, (subU64 flt).classify arr = some p ∧ p.Fits arr) := by
  have hsorts : ∀ {α : Type} [SubWord α] {r : Option (List α)} {arr : List α},
      (∃ out, r = some out ∧ StableSort SubInt.value arr out) → ∃ out, r = some out ∧ SortsTo arr out := by
    rintro α _ r arr ⟨out, hout, hsort⟩
    exact ⟨out, hout, hsort.sortsTo⟩
  refine ⟨fun env arr => hsorts ?_, fun env arr => hsorts ?_, fun env arr => hsorts ?_,
    fun env arr => hsorts ?_, fun env numThreads arr => hsorts (sublimationI64Parallel_spec avx2 env numThreads arr),
    (subI32 flt).classify_spec, (subI64 flt avx2).classify_spec, (subU32 flt).classify_spec,
    (subU64 flt).classify_spec⟩
  · exact (subI32 flt).sublimation_spec env.fast env.fork env.sched env.defaultWorkers arr
  · exact (subI64 flt avx2).sublimation_spec env.fast env.fork env.sched env.defaultWorkers arr
  · exact (subU32 flt).sublimation_spec env.fast env.fork env.sched env.defaultWorkers arr
  · exact sublimationU64_spec env arr

end

end Montauk.Sort
